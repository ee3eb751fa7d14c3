import NameResolution.Proofs.Declaration.Directives
import NameResolution.Proofs.Import.Run

/-! # Functions that imports bring in

    A set of functions may grow while imports are resolved, and an import takes
    what is in it at that moment. Once the single imports that bind the name of
    the set have come to their end nothing is added any more, as globs leave a
    name alone that is bound. So an import misses nothing where it comes after
    these. -/

namespace NameResolution

variable {n : Nat} {labels : NodeId → String → Prop} {imports : Imports n}
  {s s' : ImportState n} {i : Fin n} {opened : List (Fin n)} {directive : Directive} {name : Ident}
  {ns : Namespace} {source module : ModuleId} {binding : Binding} {text suffix : String}
  {f g : OverloadId}

namespace Importing

/-! ## Sets that stay as they are -/

/-- Binding an import changes no set but that of its own name. -/
theorem Outcome.member?_eq {publicOnly : Bool}
    (outcome : Outcome directive ns name publicOnly s binding s')
    (sorted : binding.Sorted s.defs ns) (stocked : s.defs.Stocked g)
    (apart : ns = .value →
      s.tree.bindingAt? directive.module .value name.name ≠ some (.overloads g))
    (suffix : String) : s'.defs.member? g suffix = s.defs.member? g suffix := by
  cases outcome with
  | refused _ _ _ => rfl
  | blocked _ _ _ => rfl
  | aliased _ made _ _ _ =>
    obtain ⟨_, -, last⟩ := Except.bind_eq_ok.mp made
    cases last
    rfl
  | aliasTaken _ made _ _ =>
    obtain ⟨_, -, last⟩ := Except.bind_eq_ok.mp made
    cases last
    rfl
  | @joined source existing merged _ _ _ bound made _ =>
    obtain ⟨isExisting, copies⟩ := Yields.true_iff.mp Definitions.importOverloads_copies _ made
    have isExisting : merged = existing := isExisting
    refine copies.others g suffix ?_
    rintro rfl
    rw [← isExisting] at bound
    exact apart sorted.1 bound
  | @opened source merged _ _ _ made =>
    obtain ⟨isNew, copies⟩ := Yields.true_iff.mp Definitions.importOverloads_copies _ made
    have isNew : merged = s.defs.newOverloads.1 := isNew
    refine copies.others g suffix ?_
    rintro rfl
    -- a set that has only just been made is not stocked
    obtain ⟨_, _, mem⟩ := Definitions.stocked_iff.mp stocked
    rw [Definitions.member?_of_new (by rw [isNew]; rfl)] at mem
    cases mem

theorem Brings.member?_eq (brings : Brings directive name ns source binding s s')
    (sorted : binding.Sorted s.defs ns) (stocked : s.defs.Stocked g)
    (apart : ns = .value →
      s.tree.bindingAt? directive.module .value name.name ≠ some (.overloads g))
    (suffix : String) : s'.defs.member? g suffix = s.defs.member? g suffix := by
  obtain ⟨-, -, -, outcome⟩ := brings
  exact outcome.member?_eq sorted stocked apart suffix

/-- A single import adds nothing to the set of another name. -/
theorem BringsAll.member?_eq {found : List (Namespace × ModuleId × Binding)}
    (brings : BringsAll directive name found s s') (prepared : Prepared labels directive found s)
    (bound : s.tree.bindingAt? module .value text = some (.overloads g))
    (ne : ¬ (module = directive.module ∧ text = name.name)) (suffix : String) :
    s'.defs.member? g suffix = s.defs.member? g suffix := by
  induction brings with
  | nil => rfl
  | cons first others ih =>
    obtain ⟨later, rest⟩ := prepared.first first
    have sorted := prepared.sound.sorted
    have same := first.member?_eq (prepared.sorted _ (List.mem_cons_self ..))
      (sorted.bindings bound).2 (fun _ bound' => ne (sorted.apart bound' bound)) suffix
    exact (ih rest (later.tree_keeps.bound bound)).trans same

/-- A glob adds nothing to a set that has its name. -/
theorem Move.member?_eq_of_isGlob (move : Move imports i s s')
    (isGlob : (imports.get i).isGlob = true) (inOrder : InOrder labels imports s)
    (bound : s.tree.bindingAt? module ns text = some (.overloads g)) (suffix : String) :
    s'.defs.member? g suffix = s.defs.member? g suffix := by
  have sorted := inOrder.sound.sorted
  cases move with
  | opens _ => rfl
  | fails _ _ => rfl
  | reads _ _ => rfl
  | binds _ hasTarget _ _ =>
    rw [Import.isGlob_of_target? hasTarget] at isGlob
    cases isGlob
  | spreads _ _ there free _ _ brings =>
    refine brings.member?_eq (sorted.bindings there) (sorted.bindings bound).2
      (fun isValue bound' => ?_) suffix
    rw [isValue, bound'] at free
    cases free

/-- Nothing is added to a set when nobody has still to bind its name. -/
theorem Move.member?_eq (move : Move imports i s s') (inOrder : InOrder labels imports s)
    (bound : s.tree.bindingAt? module .value text = some (.overloads g))
    (settled : AllSettled imports s module text) (suffix : String) :
    s'.defs.member? g suffix = s.defs.member? g suffix := by
  by_cases isGlob : (imports.get i).isGlob = true
  · exact move.member?_eq_of_isGlob isGlob inOrder bound suffix
  · cases move with
    | opens _ => rfl
    | fails _ _ => rfl
    | reads _ glob => exact absurd glob isGlob
    | binds inProgress hasTarget finds brings =>
      refine brings.member?_eq (inOrder.prepared finds) bound ?_ suffix
      rintro ⟨rfl, rfl⟩
      exact (settled i (by rw [Directive.slot?, hasTarget, Option.map_some])).2 inProgress
    | spreads glob _ _ _ _ _ _ => exact absurd glob isGlob

theorem Steps.member?_eq (path : Steps imports opened s s') (inOrder : InOrder labels imports s)
    (bound : s.tree.bindingAt? module .value text = some (.overloads g))
    (settled : AllSettled imports s module text) (suffix : String) :
    s'.defs.member? g suffix = s.defs.member? g suffix := by
  induction path with
  | refl => rfl
  | @tail s₁ s₂ before last ih =>
    have before : Steps imports opened s s₁ := before
    have later := inOrder.path before
    rw [← ih]
    cases last with
    | moves _ move =>
      exact move.member?_eq (later.inOrder inOrder) (later.tree_keeps.bound bound)
        (settled.steps before) suffix
    | reports _ => rfl

/-! ## Who has bound a name -/

/-- A name that has been bound since then was bound by a single import that is through with it, or
    by a glob when all of them were. -/
theorem Steps.bound_or (path : Steps imports opened s s')
    (bound : s'.tree.bindingAt? module ns text = some binding) :
    s.tree.bindingAt? module ns text = some binding ∨
      (∃ j, (imports.get j).slot? = some (module, text) ∧ s'.Finished j) ∨
      AllSettled imports s' module text := by
  induction path with
  | refl => exact .inl bound
  | @tail s₁ s₂ before last ih =>
    have step : Steps imports opened s₁ s₂ := .single last
    have earlier (bound : s₁.tree.bindingAt? module ns text = some binding) :
        s.tree.bindingAt? module ns text = some binding ∨
          (∃ j, (imports.get j).slot? = some (module, text) ∧ s₂.Finished j) ∨
          AllSettled imports s₂ module text := by
      rcases ih bound with before | ⟨j, slot, finished⟩ | settled
      · exact Or.inl before
      · exact Or.inr (.inl ⟨j, slot, step.finished finished⟩)
      · exact Or.inr (.inr (settled.steps step))
    cases last with
    | @moves j _ other move =>
      rcases move.bound_or bound with before | ⟨inProgress, slot⟩ | ⟨isGlob, -, settled⟩
      · exact earlier before
      · exact .inr (.inl ⟨j, slot, move.finished inProgress⟩)
      · refine .inr (.inr fun k slot => step.finished (settled k slot ?_))
        -- a glob binds no name of its own, so it is none of these
        rintro rfl
        rw [Lookup.single_of_slot? slot] at isGlob
        cases isGlob
    | reports _ => exact earlier bound

/-- A name gets its functions in one module from one place only, which may be declarations, one
    single import, or globs. With a second import of the name an import of the functions may miss
    some of them, although none is declared (`imported_overloads_incomplete_beside_namesake`). -/
structure OneSource (imports : Imports n) (tree : ModuleTree) (module : ModuleId)
    (name : String) : Prop where
  single : ∀ {i j : Fin n}, (imports.get i).slot? = some (module, name) →
    (imports.get j).slot? = some (module, name) → i = j
  undeclared : ∀ {i : Fin n}, (imports.get i).slot? = some (module, name) →
    tree.bindingAt? module .value name = none

theorem OneSource.settled (one : OneSource imports s.tree module text)
    (path : Steps imports opened s s')
    (bound : s'.tree.bindingAt? module .value text = some binding) :
    AllSettled imports s' module text := by
  intro j slot
  rcases path.bound_or bound with before | ⟨k, slot', finished⟩ | settled
  · rw [one.undeclared slot] at before
    cases before
  · rw [one.single slot slot']
    exact finished
  · exact settled j slot

/-! ## Taking functions over -/

/-- What an import may take of a set that a module has: everything from inside that module, and
    otherwise what is `pub`, or else everything where a single import finds nothing `pub`. -/
def MayTake (defs : Definitions) (tree : ModuleTree) (directive : Directive) (source : ModuleId)
    (g : OverloadId) (member : DefId) : Prop :=
  tree.isWithin directive.module source = .ok true ∨ defs.isPub member = .ok true ∨
    directive.isGlob = false ∧
      ∀ suffix other, defs.member? g suffix = some other → defs.isPub other = .ok false

/-- A set has been given what an import may take of another one. -/
inductive Brought (directive : Directive) (source : ModuleId) (g f : OverloadId)
    (defs : Definitions) (tree : ModuleTree) : Prop where
  | intro (inside pub : Bool) (within : tree.isWithin directive.module source = .ok inside)
      (somePub : pub = true →
        ∃ suffix member, defs.member? g suffix = some member ∧ defs.isPub member = .ok true)
      (all : ∀ suffix member, defs.member? g suffix = some member →
        ((!inside && pub) = true → defs.isPub member = .ok true) →
          ∃ own, defs.member? f suffix = some own)

theorem Brought.exists_own {defs : Definitions} {tree : ModuleTree}
    (h : Brought directive source g f defs tree) {member : DefId}
    (mem : defs.member? g suffix = some member)
    (may : MayTake defs tree directive source g member) :
    ∃ own, defs.member? f suffix = some own := by
  obtain ⟨inside, pub, within, somePub, all⟩ := h
  refine all suffix member mem fun only => ?_
  obtain ⟨outside, isPub⟩ := (Bool.and_eq_true _ _).mp only
  rcases may with isWithin | memberPub | ⟨-, nonePub⟩
  · rw [isWithin] at within
    cases within
    cases outside
  · exact memberPub
  · obtain ⟨suffix', other, mem', otherPub⟩ := somePub isPub
    rw [nonePub suffix' other mem'] at otherPub
    cases otherPub

/-- It still has if nothing has been added to the other one. -/
theorem Brought.later (h : Brought directive source g f s.defs s.tree)
    (later : Later labels s s') (valid : s.defs.Valid)
    (same : ∀ suffix, s'.defs.member? g suffix = s.defs.member? g suffix) :
    Brought directive source g f s'.defs s'.tree := by
  obtain ⟨inside, pub, within, somePub, all⟩ := h
  refine ⟨inside, pub, later.tree.isWithin within, fun isPub => ?_,
    fun suffix member mem only => ?_⟩
  · obtain ⟨suffix, member, mem, memberPub⟩ := somePub isPub
    exact ⟨suffix, member, later.defs_keeps.member? mem, later.defs_keeps.isPub memberPub⟩
  · rw [same] at mem
    have known := valid.known_of_member? mem
    obtain ⟨own, ownMem⟩ := all suffix member mem fun outside =>
      later.defs_keeps.isPub_of_known known (only outside)
    exact ⟨own, later.defs_keeps.member? ownMem⟩

/-- Copying the functions of a set gives the other one all that may be taken. -/
theorem brought_of_copies {inside pub : Bool} (later : Later labels s s') (valid : s.defs.Valid)
    (within : s.tree.isWithin directive.module source = .ok inside)
    (isPub : isPub s.defs (.overloads g) = .ok pub)
    (copies : Definitions.Copies directive.node g f (!inside && pub) s.defs s'.defs)
    (stocked : s.defs.Stocked g) (ne : g ≠ f) :
    Brought directive source g f s'.defs s'.tree := by
  refine ⟨inside, pub, later.tree.isWithin within, fun somePub => ?_,
    fun suffix member mem only => ?_⟩
  · obtain ⟨members, _, _, held, -⟩ := stocked
    subst somePub
    obtain ⟨⟨suffix, member⟩, mem, memberPub⟩ := Definitions.exists_isPub held isPub
    have mem := Definitions.member?_eq_some.mpr ⟨members, held, OverloadSet.mem_toList.mp mem⟩
    exact ⟨suffix, member, later.defs_keeps.member? mem, later.defs_keeps.isPub memberPub⟩
  · rw [copies.others g suffix ne] at mem
    have known := valid.known_of_member? mem
    exact copies.all suffix member mem fun outside =>
      later.defs_keeps.isPub_of_known known (only outside)

/-- An alias that is new in a set has come from another set, and with it everything that may be
    taken of that one. -/
theorem Brings.brought (brings : Brings directive name ns source binding s s')
    (sound : Sound labels (s.defs, s.tree)) (home : s.tree.Known directive.module)
    (sorted : binding.Sorted s.defs ns) {id : DefId} (new : ¬ s.defs.Known id)
    (mem : s'.defs.member? f suffix = some id) :
    ∃ g target, binding = .overloads g ∧ s'.defs.AliasAt directive.node id target ∧
      s.defs.member? g suffix = some target ∧
      s'.tree.bindingAt? directive.module .value name.name = some (.overloads f) ∧
      (g ≠ f → Brought directive source g f s'.defs s'.tree) := by
  have later := brings.later sound home sorted
  have valid := sound.intact.validDefs
  obtain @⟨inside, pub, _, within, isPub, -, outcome⟩ := brings
  have not_before {P : Prop} (mem : s.defs.member? f suffix = some id) : P :=
    absurd (valid.known_of_member? mem) new
  cases outcome with
  | refused _ _ _ => exact not_before mem
  | blocked _ _ _ => exact not_before mem
  | aliased _ made _ _ _ =>
    obtain ⟨_, -, last⟩ := Except.bind_eq_ok.mp made
    cases last
    exact not_before mem
  | aliasTaken _ made _ _ =>
    obtain ⟨_, -, last⟩ := Except.bind_eq_ok.mp made
    cases last
    exact not_before mem
  | @joined g existing merged _ _ _ bound made _ =>
    obtain ⟨isExisting, copies⟩ := Yields.true_iff.mp Definitions.importOverloads_copies _ made
    have isExisting : merged = existing := isExisting
    obtain ⟨rfl, target, copied, from_, -⟩ := copies.exists_target valid new mem
    rw [← isExisting] at bound
    exact ⟨g, target, rfl, copied, from_, bound,
      brought_of_copies later valid within isPub copies sorted.2⟩
  | @opened g merged _ _ _ made =>
    obtain ⟨-, copies⟩ := Yields.true_iff.mp Definitions.importOverloads_copies _ made
    obtain ⟨rfl, target, copied, from_, -⟩ := copies.exists_target valid new mem
    exact ⟨g, target, rfl, copied, from_, ModuleTree.bindingAt?_bind_self home,
      brought_of_copies later valid within isPub copies sorted.2⟩

theorem BringsAll.brought {found : List (Namespace × ModuleId × Binding)}
    (brings : BringsAll directive name found s s') (sound : Sound labels (s.defs, s.tree))
    (home : s.tree.Known directive.module)
    (there : ∀ p ∈ found, s.tree.bindingAt? p.2.1 p.1 text = some p.2.2) {id : DefId}
    (new : ¬ s.defs.Known id) (mem : s'.defs.member? f suffix = some id) :
    ∃ source g target, (.value, source, .overloads g) ∈ found ∧
      s'.defs.AliasAt directive.node id target ∧ s'.defs.member? g suffix = some target ∧
      (g ≠ f → Brought directive source g f s'.defs s'.tree) := by
  induction brings with
  | nil => exact absurd (sound.intact.validDefs.known_of_member? mem) new
  | @cons ns source binding found s s₁ s' first others ih =>
    have sorted := sound.sorted.bindings (there _ (List.mem_cons_self ..))
    have later := first.later sound home sorted
    have home₁ := later.tree.known_iff.mpr home
    have there₁ := fun p mem => later.tree_keeps.bound (there p (List.mem_cons_of_mem _ mem))
    have prepared₁ : Prepared labels directive found s₁ :=
      ⟨later.sound, home₁, fun p mem => later.sound.sorted.bindings (there₁ p mem)⟩
    have rest := others.later prepared₁
    by_cases known : s₁.defs.Known id
    · -- the alias has been made by the first, and the others leave the source as it is
      obtain ⟨g, target, rfl, made, from_, here, brought⟩ :=
        first.brought sound home sorted new (rest.members known mem)
      obtain ⟨rfl, -⟩ := sorted
      have bound := later.tree_keeps.bound (there _ (List.mem_cons_self ..))
      refine ⟨source, g, target, List.mem_cons_self .., rest.defs_keeps.aliasAt made,
        (later.trans rest).defs_keeps.member? from_, fun ne => ?_⟩
      refine (brought ne).later rest later.sound.intact.validDefs
        (others.member?_eq prepared₁ bound ?_)
      rintro ⟨rfl, rfl⟩
      rw [here] at bound
      cases bound
      exact ne rfl
    · obtain ⟨source', g, target, mem', rest⟩ := ih later.sound home₁ there₁ known mem
      exact ⟨source', g, target, List.mem_cons_of_mem _ mem', rest⟩

/-- The move by which an alias has come into a set. Where a single import has missed the name in
    some namespace, nobody has still to bind it. -/
theorem Move.brought (move : Move imports i s s') (inOrder : InOrder labels imports s) {id : DefId}
    (new : ¬ s.defs.Known id) (mem : s'.defs.member? f suffix = some id) :
    ∃ source text g target, s.tree.bindingAt? source .value text = some (.overloads g) ∧
      s'.defs.AliasAt (imports.get i).node id target ∧ s'.defs.member? g suffix = some target ∧
      (g ≠ f → Brought (imports.get i) source g f s'.defs s'.tree) ∧
      ((imports.get i).isGlob = false → MissedIn imports s i source text →
        AllSettled imports s' source text) := by
  have before {P : Prop} (mem : s.defs.member? f suffix = some id) : P :=
    absurd (inOrder.sound.intact.validDefs.known_of_member? mem) new
  cases move with
  | opens _ => exact before mem
  | fails _ _ => exact before mem
  | reads _ _ => exact before mem
  | @binds target _ _ s₁ inProgress hasTarget finds brings =>
    obtain ⟨source, g, original, mem', made, from_, brought⟩ :=
      brings.brought inOrder.sound (inOrder.homes i) finds.there new mem
    refine ⟨source, target.last.name, g, original, finds.there _ mem', made, from_, brought, ?_⟩
    intro _ missed j slot
    by_cases same : j = i
    · subst same
      exact ImportState.finished_withStatus (by simp) (by simp)
    · have finished := finds.settled _ mem' rfl missed j slot same
      unfold ImportState.Finished at finished ⊢
      rw [ImportState.statusOf_withStatus, if_neg (Ne.symm same), brings.statusOf]
      exact finished
  | spreads isGlob _ there _ _ _ brings =>
    have sorted := inOrder.sound.sorted.bindings there
    have later := brings.later inOrder.sound (inOrder.homes i) sorted
    obtain ⟨g, target, rfl, made, from_, -, brought⟩ :=
      brings.brought inOrder.sound (inOrder.homes i) sorted new mem
    obtain ⟨rfl, -⟩ := sorted
    refine ⟨_, _, g, target, there, made, later.defs_keeps.member? from_, brought, ?_⟩
    intro single
    rw [isGlob] at single
    cases single

/-! ## The whole phase -/

/-- What comes to hold on the way begins to hold at some step. -/
theorem exists_step {α : Type} {r : α → α → Prop} (p : α → Prop) {a b : α}
    (path : Relation.ReflTransGen r a b) (before : ¬ p a) (after : p b) :
    ∃ c d, Relation.ReflTransGen r a c ∧ r c d ∧ Relation.ReflTransGen r d b ∧ ¬ p c ∧ p d := by
  induction path with
  | refl => exact absurd after before
  | @tail c d first last ih =>
    by_cases earlier : p c
    · obtain ⟨c', d', first', step, last', no, yes⟩ := ih earlier
      exact ⟨c', d', first', step, last'.tail last, no, yes⟩
    · exact ⟨c, d, first, last, .refl, earlier, after⟩

theorem MissedIn.earlier (missed : MissedIn imports s' i module text)
    (later : Later labels s s') : MissedIn imports s i module text := by
  obtain ⟨ns, free, around⟩ := missed
  refine ⟨ns, later.tree_keeps.free free, fun other mem => later.tree_keeps.free ?_⟩
  rw [← later.tree.around] at mem
  exact around other mem

/-- Where a set has an alias of a function of another one it has been given all that the import
    may take, provided that the import has come after all others that bind the name. -/
theorem Steps.brought (path : Steps imports opened s s') (inOrder : InOrder labels imports s)
    {id target : DefId} (new : ¬ s.defs.Known id)
    (made : s'.defs.AliasAt (imports.get i).node id target)
    (only : ∀ j, (imports.get j).node = (imports.get i).node → j = i)
    (mem : s'.defs.member? f suffix = some id) {suffix' : String}
    (from_ : s'.defs.member? g suffix' = some target)
    (bound : s'.tree.bindingAt? module .value text = some (.overloads g))
    (after : OneSource imports s.tree module text ∨
      (imports.get i).isGlob = false ∧ MissedIn imports s' i module text) (ne : g ≠ f) :
    Brought (imports.get i) module g f s'.defs s'.tree := by
  have end_ := inOrder.path path
  have known : s'.defs.Known id := end_.sound.intact.validDefs.known_of_member? mem
  obtain ⟨s₁, s₂, first, step, last, unknown₁, known₂⟩ :=
    exists_step (fun s => s.defs.Known id) path new known
  have soFar := inOrder.path first
  have inOrder₁ := soFar.inOrder inOrder
  have later₁ := inOrder₁.step step
  have inOrder₂ := later₁.inOrder inOrder₁
  have later₂ := inOrder₂.path last
  cases step with
  | reports _ => exact absurd known₂ unknown₁
  | @moves k _ other move =>
    obtain ⟨source, text', g', target', there, made', from', brought, settled⟩ :=
      move.brought inOrder₁ unknown₁ (later₂.members known₂ mem)
    -- node and target of the alias tell the import and the set
    obtain ⟨node, rfl⟩ := made.unique (later₂.defs_keeps.aliasAt made')
    obtain rfl := only k node
    obtain rfl := end_.sound.sorted.defs.once from_ (later₂.defs_keeps.member? from')
    have there₂ := later₁.tree_keeps.bound there
    obtain ⟨rfl, rfl⟩ := end_.sound.sorted.apart (later₂.tree_keeps.bound there₂) bound
    have all : AllSettled imports s₂ module text := by
      rcases after with one | ⟨single, missed⟩
      · exact (one.settled first there).steps (.single (.moves other move))
      · exact settled single (missed.earlier (later₁.trans later₂))
    exact (brought ne).later later₂ inOrder₂.sound.intact.validDefs
      (Steps.member?_eq last inOrder₂ there₂ all)

end Importing

/-- Functions of one set have been brought into another one by the import at a node. -/
def Definitions.Feeds (defs : Definitions) (node : NodeId) (g f : OverloadId) : Prop :=
  ∃ id target suffix suffix', defs.AliasAt node id target ∧
    defs.member? f suffix = some id ∧ defs.member? g suffix' = some target

open Importing in
/-- Over what the first pass makes of any program, and with its imports in any order: an import
    that has brought in functions of a set has brought in all that it may take, provided that the
    set has got its functions from one place only, or that the import is a single one and has missed
    the name of the set in some namespace. -/
theorem imported_overloads_complete {program : Program} (distinct : program.nodes.Nodup)
    {built : DeclareState} {log log' : Log}
    (declared : declareProgram .empty .new program log = .ok built log')
    {directives : List Directive} (reordered : directives.Perm built.directives) {lint : Bool}
    {s : ImportState directives.length} {log₀ log₁ : Log}
    (run : resolveImports built.defs built.tree lint directives log₀ = .ok s log₁)
    {i : Fin directives.length} {source : ModuleId} {name : String} {g f : OverloadId}
    (bound : s.tree.bindingAt? source .value name = some (.overloads g))
    (feeds : s.defs.Feeds (directives.get i).node g f)
    (after : OneSource (Imports.ofList directives lint) built.tree source name ∨
      (directives.get i).isGlob = false ∧ MissedIn (Imports.ofList directives lint) s i source name)
    {suffix : String} {member : DefId} (mem : s.defs.member? g suffix = some member)
    (may : MayTake s.defs s.tree (directives.get i) source g member) :
    ∃ own, s.defs.member? f suffix = some own := by
  obtain ⟨inOrder, goes⟩ := resolveImports_goes declared reordered run
  obtain ⟨nodup, noAlias⟩ := declareProgram_collects distinct declared
  obtain ⟨id, target, suffix', suffix'', made, into, from_⟩ := feeds
  -- the alias is younger than the first pass, which has made none
  have new : ¬ built.defs.Known id := by
    intro known
    exact noAlias _ _ _ ((inOrder.path goes.steps).defs_keeps.aliasAt_of_known known made)
  have only : ∀ j : Fin directives.length,
      (directives.get j).node = (directives.get i).node → j = i := by
    intro j same
    have nodup : (directives.map (·.node)).Nodup := (reordered.map _).nodup_iff.mpr nodup
    have equal : directives.get j = directives.get i :=
      List.inj_on_of_nodup_map nodup (List.getElem_mem _) (List.getElem_mem _) same
    exact Fin.ext (nodup.of_map.getElem_inj_iff.mp equal)
  by_cases same : g = f
  · exact ⟨member, same ▸ mem⟩
  · exact (goes.steps.brought inOrder new made only into from_ bound after same).exists_own mem may

/-- Two functions of one name, and an import of both:

        mod s { pub use ::t::f; }
        mod t { pub func f(); pub func f(x); } -/
def taken : Program :=
  ⟨⟨0⟩, ⟨0, 9⟩,
    [.mod ⟨⟨1⟩, true, ⟨1, 1⟩⟩ ⟨"s", ⟨1, 1⟩⟩
      [.useDecl ⟨⟨2⟩, true, ⟨2, 1⟩⟩
        (.path ⟨3⟩ ⟨3, 1⟩ ⟨true, [⟨.name "t", ⟨3, 1⟩⟩, ⟨.name "f", ⟨3, 1⟩⟩]⟩ none)],
    .mod ⟨⟨4⟩, true, ⟨4, 1⟩⟩ ⟨"t", ⟨4, 1⟩⟩
      [.func ⟨⟨5⟩, true, ⟨5, 1⟩⟩ .func ⟨"f", ⟨5, 1⟩⟩ [] [] none none,
      .func ⟨⟨6⟩, true, ⟨6, 1⟩⟩ .func ⟨"f", ⟨6, 1⟩⟩ []
        [.mk none (.ident ⟨7⟩ ⟨"x", ⟨7, 1⟩⟩ none) none none] none none]]⟩

open Importing in
theorem imported_overloads_complete_of_taken :
    ∃ built log', declareProgram .empty .new taken .empty = .ok built log' ∧
      ∃ s log₁, resolveImports built.defs built.tree true built.directives .empty = .ok s log₁ ∧
        ∃ i : Fin built.directives.length,
          s.tree.bindingAt? ⟨2⟩ .value "f" = some (.overloads ⟨0⟩) ∧
          s.defs.Feeds (built.directives.get i).node ⟨0⟩ ⟨1⟩ ∧
          OneSource (Imports.ofList built.directives true) built.tree ⟨2⟩ "f" ∧
          s.defs.member? ⟨0⟩ "(x:)" = some ⟨4⟩ ∧
          MayTake s.defs s.tree (built.directives.get i) ⟨2⟩ ⟨0⟩ ⟨4⟩ ∧
          ∃ own, s.defs.member? ⟨1⟩ "(x:)" = some own := by
  have distinct : taken.nodes.Nodup := by decide +kernel
  obtain ⟨built, log', declared, s, log₁, run, rest⟩ := exists_resolved_of_check taken
    (fun built s => decide (s.tree.bindingAt? ⟨2⟩ .value "f" = some (.overloads ⟨0⟩) ∧
      s.defs.member? ⟨0⟩ "()" = some ⟨3⟩ ∧ s.defs.member? ⟨1⟩ "()" = some ⟨5⟩ ∧
      s.defs.member? ⟨0⟩ "(x:)" = some ⟨4⟩ ∧ s.defs.isPub ⟨4⟩ = .ok true ∧
      (∀ d ∈ built.directives, d.slot? ≠ some (⟨2⟩, "f")) ∧
      ∃ i ∈ List.finRange _, s.defs.AliasAt (built.directives.get i).node ⟨5⟩ ⟨3⟩))
    (by decide +kernel)
  obtain ⟨bound, from_, into, mem, isPub, noSlot, i, -, made⟩ := of_decide_eq_true rest
  have feeds : s.defs.Feeds (built.directives.get i).node ⟨0⟩ ⟨1⟩ :=
    ⟨_, _, _, _, made, into, from_⟩
  have may : MayTake s.defs s.tree (built.directives.get i) ⟨2⟩ ⟨0⟩ ⟨4⟩ := .inr (.inl isPub)
  have one : OneSource (Imports.ofList built.directives true) built.tree ⟨2⟩ "f" :=
    ⟨fun slot => absurd slot (noSlot _ (List.getElem_mem _)),
      fun slot => absurd slot (noSlot _ (List.getElem_mem _))⟩
  exact ⟨built, log', declared, s, log₁, run, i, bound, feeds, one, mem, may,
    imported_overloads_complete distinct declared (List.Perm.refl _) run bound feeds (.inl one) mem
      may⟩

/-! ## Functions that come too late -/

/-- An import has brought in functions of a set, and left out one with a suffix that it may
    take. -/
structure Lacks {n : Nat} (s : ImportState n) (directive : Directive) (source : ModuleId)
    (name : String) (g f : OverloadId) (suffix : String) : Prop where
  bound : s.tree.bindingAt? source .value name = some (.overloads g)
  feeds : s.defs.Feeds directive.node g f
  may : ∃ member, s.defs.member? g suffix = some member ∧
    Importing.MayTake s.defs s.tree directive source g member
  missing : s.defs.member? f suffix = none

/-- A module declares a function and imports another one of the name, while somebody else asks for
    the first:

        use m::f;
        mod m { pub use ::s::*; }
        mod s { pub func f(); pub use ::t::f; }
        mod t { pub func f(x); } -/
def askedEarly : Program :=
  ⟨⟨0⟩, ⟨0, 18⟩,
    [.useDecl ⟨⟨1⟩, false, ⟨1, 1⟩⟩
      (.path ⟨2⟩ ⟨2, 1⟩ ⟨false, [⟨.name "m", ⟨2, 1⟩⟩, ⟨.name "f", ⟨2, 1⟩⟩]⟩ none),
    .mod ⟨⟨3⟩, true, ⟨3, 1⟩⟩ ⟨"m", ⟨3, 1⟩⟩
      [.useDecl ⟨⟨4⟩, true, ⟨4, 1⟩⟩ (.glob ⟨5⟩ ⟨5, 1⟩ (some ⟨true, [⟨.name "s", ⟨5, 1⟩⟩]⟩))],
    .mod ⟨⟨6⟩, true, ⟨6, 1⟩⟩ ⟨"s", ⟨6, 1⟩⟩
      [.func ⟨⟨7⟩, true, ⟨7, 1⟩⟩ .func ⟨"f", ⟨7, 1⟩⟩ [] [] none none,
      .useDecl ⟨⟨8⟩, true, ⟨8, 1⟩⟩
        (.path ⟨9⟩ ⟨9, 1⟩ ⟨true, [⟨.name "t", ⟨9, 1⟩⟩, ⟨.name "f", ⟨9, 1⟩⟩]⟩ none)],
    .mod ⟨⟨10⟩, true, ⟨10, 1⟩⟩ ⟨"t", ⟨10, 1⟩⟩
      [.func ⟨⟨11⟩, true, ⟨11, 1⟩⟩ .func ⟨"f", ⟨11, 1⟩⟩ []
        [.mk none (.ident ⟨12⟩ ⟨"x", ⟨12, 1⟩⟩ none) none none] none none]]⟩

/-- The name is bound already, so nobody waits for the import that adds to it. -/
theorem imported_overloads_incomplete :
    ∃ built log', declareProgram .empty .new askedEarly .empty = .ok built log' ∧
      ∃ s log₁, resolveImports built.defs built.tree true built.directives .empty = .ok s log₁ ∧
        ∃ directive ∈ built.directives, directive.pathText = "::s::*" ∧
          Lacks s directive ⟨2⟩ "f" ⟨0⟩ ⟨2⟩ "(x:)" := by
  obtain ⟨built, log', declared, s, log₁, run, rest⟩ := exists_resolved_of_check askedEarly
    (fun built s => decide (s.tree.bindingAt? ⟨2⟩ .value "f" = some (.overloads ⟨0⟩) ∧
      s.defs.member? ⟨0⟩ "()" = some ⟨3⟩ ∧ s.defs.member? ⟨2⟩ "()" = some ⟨6⟩ ∧
      s.defs.member? ⟨0⟩ "(x:)" = some ⟨7⟩ ∧ s.defs.isPub ⟨7⟩ = .ok true ∧
      s.defs.member? ⟨2⟩ "(x:)" = none ∧
      ∃ d ∈ built.directives, d.pathText = "::s::*" ∧ s.defs.AliasAt d.node ⟨6⟩ ⟨3⟩))
    (by decide +kernel)
  obtain ⟨bound, from_, into, mem, isPub, missing, directive, here, path, made⟩ :=
    of_decide_eq_true rest
  exact ⟨built, log', declared, s, log₁, run, directive, here, path, bound,
    ⟨_, _, _, _, made, into, from_⟩, ⟨_, mem, .inr (.inl isPub)⟩, missing⟩

/-- Two imports of one name, where the second leads back to what the first has brought in:

        mod m { pub use ::s::*; }
        mod s { pub use ::t::f; pub use ::u::f; }
        mod t { pub func f(); }
        mod u { pub func f(x); pub use ::m::f; } -/
def fedBack : Program :=
  ⟨⟨0⟩, ⟨0, 20⟩,
    [.mod ⟨⟨1⟩, true, ⟨1, 1⟩⟩ ⟨"m", ⟨1, 1⟩⟩
      [.useDecl ⟨⟨2⟩, true, ⟨2, 1⟩⟩ (.glob ⟨3⟩ ⟨3, 1⟩ (some ⟨true, [⟨.name "s", ⟨3, 1⟩⟩]⟩))],
    .mod ⟨⟨4⟩, true, ⟨4, 1⟩⟩ ⟨"s", ⟨4, 1⟩⟩
      [.useDecl ⟨⟨5⟩, true, ⟨5, 1⟩⟩
        (.path ⟨6⟩ ⟨6, 1⟩ ⟨true, [⟨.name "t", ⟨6, 1⟩⟩, ⟨.name "f", ⟨6, 1⟩⟩]⟩ none),
      .useDecl ⟨⟨7⟩, true, ⟨7, 1⟩⟩
        (.path ⟨8⟩ ⟨8, 1⟩ ⟨true, [⟨.name "u", ⟨8, 1⟩⟩, ⟨.name "f", ⟨8, 1⟩⟩]⟩ none)],
    .mod ⟨⟨9⟩, true, ⟨9, 1⟩⟩ ⟨"t", ⟨9, 1⟩⟩
      [.func ⟨⟨10⟩, true, ⟨10, 1⟩⟩ .func ⟨"f", ⟨10, 1⟩⟩ [] [] none none],
    .mod ⟨⟨11⟩, true, ⟨11, 1⟩⟩ ⟨"u", ⟨11, 1⟩⟩
      [.func ⟨⟨12⟩, true, ⟨12, 1⟩⟩ .func ⟨"f", ⟨12, 1⟩⟩ []
        [.mk none (.ident ⟨13⟩ ⟨"x", ⟨13, 1⟩⟩ none) none none] none none,
      .useDecl ⟨⟨14⟩, true, ⟨14, 1⟩⟩
        (.path ⟨15⟩ ⟨15, 1⟩ ⟨true, [⟨.name "m", ⟨15, 1⟩⟩, ⟨.name "f", ⟨15, 1⟩⟩]⟩ none)]]⟩

/-- Here the first pass has bound the name nowhere in the module that it is taken from. -/
theorem imported_overloads_incomplete_beside_namesake :
    ∃ built log', declareProgram .empty .new fedBack .empty = .ok built log' ∧
      built.tree.bindingAt? ⟨2⟩ .value "f" = none ∧
      ∃ s log₁, resolveImports built.defs built.tree true built.directives .empty = .ok s log₁ ∧
        ∃ directive ∈ built.directives, directive.pathText = "::s::*" ∧
          Lacks s directive ⟨2⟩ "f" ⟨2⟩ ⟨3⟩ "(x:)" := by
  obtain ⟨built, log', declared, s, log₁, run, rest⟩ := exists_resolved_of_check fedBack
    (fun built s => decide (built.tree.bindingAt? ⟨2⟩ .value "f" = none ∧
      s.tree.bindingAt? ⟨2⟩ .value "f" = some (.overloads ⟨2⟩) ∧
      s.defs.member? ⟨2⟩ "()" = some ⟨7⟩ ∧ s.defs.member? ⟨3⟩ "()" = some ⟨8⟩ ∧
      s.defs.member? ⟨2⟩ "(x:)" = some ⟨10⟩ ∧ s.defs.isPub ⟨10⟩ = .ok true ∧
      s.defs.member? ⟨3⟩ "(x:)" = none ∧
      ∃ d ∈ built.directives, d.pathText = "::s::*" ∧ s.defs.AliasAt d.node ⟨8⟩ ⟨7⟩))
    (by decide +kernel)
  obtain ⟨unbound, bound, from_, into, mem, isPub, missing, directive, here, path, made⟩ :=
    of_decide_eq_true rest
  exact ⟨built, log', declared, unbound, s, log₁, run, directive, here, path, bound,
    ⟨_, _, _, _, made, into, from_⟩, ⟨_, mem, .inr (.inl isPub)⟩, missing⟩

end NameResolution
