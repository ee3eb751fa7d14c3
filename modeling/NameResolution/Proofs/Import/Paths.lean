import NameResolution.Import.Lookup

/-! # Following paths by two lookups

    Following a path is made of lookups and of parts that only read the tables.
    So what is kept when attempts are put together relates a path followed by
    one lookup to the same path followed by another, if it relates the two
    lookups on the way. -/

namespace NameResolution

variable {n : Nat}

namespace Lookup

variable (imports : Imports n) (lookup : Lookup n)

/-- What a single import finds, in a module or outward from it. -/
def findSingle (asker : Asker n) (target : ImportTarget) :
    Attempt n (List (Namespace × ModuleId × Binding)) := do
  let directive := imports.get asker.index
  let bare := target.lead.isEmpty && !directive.path.global
  let module ← modulePath lookup asker directive.module directive.path.global target.lead
  let namespaces := if target.typesOnly then [.type] else Namespace.all
  let found ← findTargets lookup asker module bare target.last.name namespaces
  if found.isEmpty then do
    let s ← get
    let place ← Attempt.lift (Importing.placeText s.tree s.defs module)
    throw (.noItem target.last.name place)
  else return found

variable {imports} {lookup}

/-- A single import first finds what it is after, and then binds it. -/
theorem importSingle_eq {asker : Asker n} {target : ImportTarget}
    (hasTarget : (imports.get asker.index).target? = some target) :
    importSingle imports lookup asker = findSingle imports lookup asker target >>= fun found =>
      liftM (bindTargets imports (imports.get asker.index) target
        (target.lead.isEmpty && !(imports.get asker.index).path.global) found) := by
  unfold importSingle findSingle
  dsimp only
  rw [hasTarget]
  simp only [bind_assoc]
  refine bind_congr fun module => bind_congr fun found => ?_
  split
  · simp only [bind_assoc]
    rfl
  · rw [pure_bind]

end Lookup

/-- A part that cannot give up, as an attempt. -/
theorem Attempt.run_liftM {α : Type} (m : Importing n α) :
    (liftM m : Attempt n α).run = m >>= fun a => pure (.ok a) := map_eq_pure_bind Except.ok m

/-! ## What is kept along a path -/

/-- A relation between attempts that holds of whatever only reads the tables, and of attempts one
    after another. It need not hold of one that fails for a cycle. -/
structure Attempt.Relates (rel : ∀ {α : Type}, Attempt n α → Attempt n α → Prop) : Prop where
  pure : ∀ {α : Type} (a : α), rel (Pure.pure a : Attempt n α) (Pure.pure a : Attempt n α)
  throw : ∀ {α : Type} {failure : ImportFailure}, failure ≠ .cycle →
    rel (MonadExcept.throw failure : Attempt n α) (MonadExcept.throw failure : Attempt n α)
  lift : ∀ {α : Type} (result : Except Fault α),
    rel (Attempt.lift result : Attempt n α) (Attempt.lift result : Attempt n α)
  /-- Who reads the state may not look at more than the tables -/
  reads : ∀ {α : Type} {f f' : ImportState n → Attempt n α}, (∀ s s', s'.defs = s.defs →
    s'.tree = s.tree → rel (f s) (f' s')) → rel (get >>= f) (get >>= f')
  bind : ∀ {α β : Type} {m m' : Attempt n α} {f f' : α → Attempt n β}, rel m m' →
    (∀ a, rel (f a) (f' a)) → rel (m >>= f) (m' >>= f')

namespace Attempt.Relates

open Lookup

variable {rel : ∀ {α : Type}, Attempt n α → Attempt n α → Prop} (relates : Relates rel)

include relates

/-! ## Without looking up -/

theorem enclosingMod (module : ModuleId) :
    rel (enclosingMod module : Attempt n ModuleId) (enclosingMod module : Attempt n ModuleId) := by
  refine relates.reads fun s s' defs tree => ?_
  rw [defs, tree]
  exact relates.lift _

theorem outerMod (module : ModuleId) :
    rel (outerMod module : Attempt n ModuleId) (outerMod module : Attempt n ModuleId) := by
  refine relates.bind (relates.enclosingMod module) fun current =>
    relates.reads fun s s' _ tree => ?_
  rw [tree]
  refine relates.bind (relates.lift _) fun m => ?_
  split
  · exact relates.enclosingMod _
  · exact relates.throw (by simp)

theorem moduleOf (module : ModuleId) (name : String) (binding : Option Binding) :
    rel (moduleOf module name binding : Attempt n ModuleId)
      (moduleOf module name binding : Attempt n ModuleId) := by
  refine relates.reads fun s s' defs tree => ?_
  rw [defs, tree]
  cases binding with
  | none => exact relates.bind (relates.lift _) fun _ => relates.throw (by simp)
  | some binding =>
    refine relates.bind (relates.lift _) fun id => ?_
    split
    · exact relates.pure _
    · exact relates.bind (relates.lift _) fun _ => relates.throw (by simp)

/-! ## Looking up on the way -/

variable {lookup lookup' : Lookup n} {asker : Asker n}
  (lookups : ∀ module ns name, rel (lookup asker module ns name) (lookup' asker module ns name))

include lookups

theorem inAnyOf (ns : Namespace) (name : String) (modules : List ModuleId) :
    rel (inAnyOf lookup asker ns name modules) (inAnyOf lookup' asker ns name modules) := by
  induction modules with
  | nil => exact relates.pure _
  | cons module modules ih =>
    refine relates.bind (lookups module ns name) fun found => ?_
    cases found with
    | some binding => exact relates.pure _
    | none => exact ih

theorem outward (module : ModuleId) (ns : Namespace) (name : String) :
    rel (outward lookup asker module ns name) (outward lookup' asker module ns name) := by
  refine relates.reads fun s s' _ tree => ?_
  rw [tree]
  exact relates.bind (relates.lift _) fun _ => relates.inAnyOf lookups ns name _

theorem followModules (segments : List Segment) (position : PathPosition) (module : ModuleId) :
    rel (followModules lookup asker position module segments)
      (followModules lookup' asker position module segments) := by
  -- only a name is looked up; the words climb in the same way over any lookups
  induction segments generalizing position module with
  | nil =>
    unfold Lookup.followModules
    exact relates.pure _
  | cons segment segments ih =>
    unfold Lookup.followModules
    split
    · exact relates.bind (relates.enclosingMod module) fun _ => ih _ _
    · exact relates.bind (relates.outerMod module) fun _ => ih _ _
    · exact relates.bind (relates.outerMod module) fun _ => ih _ _
    · exact relates.bind (relates.outward lookups module _ _) fun _ =>
        relates.bind (relates.moduleOf module _ _) fun _ => ih _ _
    · exact relates.bind (lookups module _ _) fun _ =>
        relates.bind (relates.moduleOf module _ _) fun _ => ih _ _
    · exact relates.throw (by simp)

theorem modulePath (home : ModuleId) (global : Bool) (segments : List Segment) :
    rel (modulePath lookup asker home global segments)
      (modulePath lookup' asker home global segments) := by
  unfold Lookup.modulePath
  split
  · exact relates.followModules lookups segments _ _
  · exact relates.followModules lookups segments _ _

theorem findTargets (module : ModuleId) (bare : Bool) (name : String)
    (namespaces : List Namespace) :
    rel (findTargets lookup asker module bare name namespaces)
      (findTargets lookup' asker module bare name namespaces) := by
  induction namespaces with
  | nil => exact relates.pure _
  | cons ns others ih =>
    rw [Lookup.findTargets, Lookup.findTargets]
    have rest (found : Option (ModuleId × Binding)) := relates.bind ih fun rest =>
      relates.pure (found.toList.map (ns, ·) ++ rest)
    split
    · exact relates.bind (relates.outward lookups module ns name) rest
    · refine relates.bind (lookups module ns name) fun found => ?_
      exact relates.bind (relates.pure _) rest

/-- Everything that a single import does before it binds what it has found. -/
theorem findSingle (imports : Imports n) (target : ImportTarget) :
    rel (findSingle imports lookup asker target) (findSingle imports lookup' asker target) := by
  refine relates.bind (relates.modulePath lookups _ _ _) fun module =>
    relates.bind (relates.findTargets lookups module _ _ _) fun found => ?_
  split
  · refine relates.reads fun s s' defs tree => ?_
    rw [defs, tree]
    exact relates.bind (relates.lift _) fun _ => relates.throw (by simp)
  · exact relates.pure _

theorem globPath (imports : Imports n) :
    rel (globPath imports lookup asker) (globPath imports lookup' asker) := by
  unfold Lookup.globPath
  dsimp only
  split
  · exact relates.throw (by simp)
  · exact relates.modulePath lookups _ _ _

end Attempt.Relates

/-! ## Over one lookup -/

/-- A property of attempts that holds of whatever only reads the state, and of attempts one after
    another. It need not hold of one that fails for a cycle. -/
structure Attempt.Composes (p : ∀ {α : Type}, Attempt n α → Prop) : Prop where
  pure : ∀ {α : Type} (a : α), p (Pure.pure a : Attempt n α)
  throw : ∀ {α : Type} {failure : ImportFailure}, failure ≠ .cycle →
    p (MonadExcept.throw failure : Attempt n α)
  lift : ∀ {α : Type} {result : Except Fault α}, p (Attempt.lift result : Attempt n α)
  get : p (MonadState.get : Attempt n (ImportState n))
  bind : ∀ {α β : Type} {m : Attempt n α} {f : α → Attempt n β}, p m → (∀ a, p (f a)) → p (m >>= f)

namespace Attempt.Composes

variable {p : ∀ {α : Type}, Attempt n α → Prop} (composes : Composes p)

include composes

/-- A property relates any two attempts that have it. -/
theorem relates : Relates fun m m' => p m ∧ p m' where
  pure a := ⟨composes.pure a, composes.pure a⟩
  throw noCycle := ⟨composes.throw noCycle, composes.throw noCycle⟩
  lift _ := ⟨composes.lift, composes.lift⟩
  reads h := ⟨composes.bind composes.get fun s => (h s s rfl rfl).1,
    composes.bind composes.get fun s => (h s s rfl rfl).2⟩
  bind h h' := ⟨composes.bind h.1 fun a => (h' a).1, composes.bind h.2 fun a => (h' a).2⟩

variable {lookup : Lookup n} {asker : Asker n}
  (lookups : ∀ module ns name, p (lookup asker module ns name))

include lookups

theorem findSingle (imports : Imports n) (target : ImportTarget) :
    p (Lookup.findSingle imports lookup asker target) := by
  have both (module ns name) := And.intro (lookups module ns name) (lookups module ns name)
  exact (composes.relates.findSingle both imports target).1

theorem globPath (imports : Imports n) : p (Lookup.globPath imports lookup asker) := by
  have both (module ns name) := And.intro (lookups module ns name) (lookups module ns name)
  exact (composes.relates.globPath both imports).1

end Attempt.Composes

end NameResolution
