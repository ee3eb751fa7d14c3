import NameResolution.Proofs.Import.Depth
import NameResolution.Proofs.Import.Moves
import NameResolution.Proofs.Tables.Places

/-! # Following paths by plain lookups

    The path of an import can be followed once more over tables that are
    finished, with lookups that only read them. That changes nothing and ends
    without a fault, so it has a plain result.

    What a glob has brought in may have come too late for an import. A second
    way to look names up reads the tables as well, but stops at such a name.
    Where it does not stop, both find the same. -/

namespace NameResolution

variable {n : Nat}

/-! ## Reading -/

/-- An attempt that only reads the state and gives a result. -/
def Attempt.Reads {α : Type} (m : Attempt n α) (s : ImportState n)
    (r : Except ImportFailure α) : Prop :=
  ∀ log, m.run s log = .ok (r, s) log

/-- An attempt that ends at a name that has come in behind its back. -/
def Attempt.Stops {α : Type} (m : Attempt n α) (s : ImportState n) : Prop :=
  ∀ log, ∃ name log', m.run s log = .error (.importAppeared name) log'

/-- An attempt from which no result comes. -/
def Attempt.Fails {α : Type} (m : Attempt n α) (s : ImportState n) : Prop :=
  m.Stops s ∨ ∃ failure, m.Reads s (.error failure)

namespace Attempt

variable {α β : Type} {s : ImportState n}

namespace Reads

variable {r : Except ImportFailure β}

theorem pure (a : α) : Reads (Pure.pure a : Attempt n α) s (.ok a) := fun _ => rfl

theorem throw (failure : ImportFailure) :
    Reads (MonadExcept.throw failure : Attempt n α) s (.error failure) := fun _ => rfl

theorem get : Reads (MonadState.get : Attempt n (ImportState n)) s (.ok s) := fun _ => rfl

theorem lift {result : Except Fault α} {a : α} (h : result = .ok a) :
    Reads (Attempt.lift result : Attempt n α) s (.ok a) := by
  intro log
  subst h
  rfl

theorem bind {m : Attempt n α} {f : α → Attempt n β} {a : α} (h : Reads m s (.ok a))
    (h' : Reads (f a) s r) : Reads (m >>= f) s r :=
  fun log => Logged.bind_eq_ok.mpr ⟨(.ok a, s), log, h log, h' log⟩

/-- What comes after an error is left out. -/
theorem bind_error {m : Attempt n α} {f : α → Attempt n β} {failure : ImportFailure}
    (h : Reads m s (.error failure)) : Reads (m >>= f) s (.error failure) :=
  fun log => Logged.bind_eq_ok.mpr ⟨(.error failure, s), log, h log, rfl⟩

theorem stops {m : Attempt n α} {f : α → Attempt n β} {a : α} (h : Reads m s (.ok a))
    (h' : Stops (f a) s) : Stops (m >>= f) s := by
  intro log
  obtain ⟨name, log', stops⟩ := h' log
  exact ⟨name, log', (Logged.bind_of_ok (h log)).trans stops⟩

end Reads

/-- What comes after a fault is left out. -/
theorem Stops.bind {m : Attempt n α} {f : α → Attempt n β} (h : Stops m s) :
    Stops (m >>= f) s := by
  intro log
  obtain ⟨name, log', stops⟩ := h log
  exact ⟨name, log', Logged.bind_of_error stops⟩

theorem Fails.bind {m : Attempt n α} {f : α → Attempt n β} (h : Fails m s) : Fails (m >>= f) s := by
  rcases h with stops | ⟨failure, reads⟩
  · exact .inl stops.bind
  · exact .inr ⟨failure, reads.bind_error⟩

/-- What is read by an attempt that does not stop is read by one that it is a cut of. -/
theorem Cuts.reads {m m' : Attempt n α} (h : Cuts m m') {r : Except ImportFailure α}
    (reads : m.Reads s r) : m'.Reads s r :=
  fun log => Importing.Cuts.eq_of_ok h (reads log)

end Attempt

/-! ## Plain lookups -/

namespace Lookup

/-- Looks a name up in the tables as they are. -/
def plain : Lookup n := fun _ module ns name =>
  liftM (Importing.bindingOf module ns name : Importing n (Option Binding))

/-- Looks a name up in the tables as they are, and stops where a glob has brought it in. -/
def explicit (imports : Imports n) : Lookup n := fun asker module ns name => do
  let found ← plain asker module ns name
  let s ← get
  match found with
  | none => return none
  | some binding =>
    if Importing.BroughtIn imports s.defs module binding then
      Attempt.lift (.error (.importAppeared name))
    else return some binding

section

variable {imports : Imports n} {s : ImportState n} {module : ModuleId} {name : String}

theorem plain_reads (known : s.tree.Known module) (asker : Asker n) (ns : Namespace)
    (name : String) :
    Attempt.Reads (plain asker module ns name) s
      (.ok (s.tree.bindingAt? module ns name)) := by
  obtain ⟨m, found⟩ := known.find?
  intro log
  have reads : Tries False (plain asker module ns name) s log fun r s' log' =>
      r = .ok (s.tree.bindingAt? module ns name) ∧ s' = s ∧ log' = log := by
    simp only [plain, Tries.liftM_iff, Importing.bindingOf, Importing.lift, Run.bind_iff,
      Run.get_iff, Run.lift_iff, Run.pure_iff, ModuleTree.get_of_find? found, Yields.ok_iff,
      ModuleTree.bindingAt?_of_find? found, and_self]
  obtain ⟨_, _, _, run, rfl, rfl, rfl⟩ := Run.false_iff.mp reads
  exact run

theorem explicit_reads_none (known : s.tree.Known module) (asker : Asker n) {ns : Namespace}
    (free : s.tree.bindingAt? module ns name = none) :
    Attempt.Reads (explicit imports asker module ns name) s (.ok none) := by
  have first := plain_reads known asker ns name
  rw [free] at first
  exact first.bind (Attempt.Reads.get.bind (.pure none))

theorem explicit_reads_some (known : s.tree.Known module) (asker : Asker n) {ns : Namespace}
    {binding : Binding} (bound : s.tree.bindingAt? module ns name = some binding)
    (explicitly : ¬ Importing.BroughtIn imports s.defs module binding) :
    Attempt.Reads (explicit imports asker module ns name) s (.ok (some binding)) := by
  have first := plain_reads known asker ns name
  rw [bound] at first
  refine first.bind (Attempt.Reads.get.bind ?_)
  simp only [if_neg explicitly]
  exact .pure _

theorem explicit_stops (known : s.tree.Known module) (asker : Asker n) {ns : Namespace}
    {binding : Binding} (bound : s.tree.bindingAt? module ns name = some binding)
    (broughtIn : Importing.BroughtIn imports s.defs module binding) :
    Attempt.Stops (explicit imports asker module ns name) s := by
  have first := plain_reads known asker ns name
  rw [bound] at first
  refine first.stops (Attempt.Reads.get.stops fun log => ?_)
  simp only [if_pos broughtIn]
  exact ⟨name, log, rfl⟩

theorem cuts_explicit : Cuts (explicit imports) plain := by
  intro asker module ns name
  have then_ : Attempt.Cuts (explicit imports asker module ns name)
      (plain asker module ns name >>= pure) := by
    unfold explicit
    refine Attempt.Cuts.after _ fun found s log => ?_
    cases found with
    | none => exact .inl rfl
    | some binding =>
      show (ite (Importing.BroughtIn imports s.defs module binding) _ _ : Attempt n _).run s log = _
        ∨ ∃ fault log', (ite _ _ _ : Attempt n _).run s log = .error fault log'
      split
      · exact .inr ⟨.importAppeared name, log, rfl⟩
      · exact .inl rfl
  rw [bind_pure] at then_
  exact then_

end

variable (imports : Imports n) (lookup : Lookup n)

/-! ## Whole paths -/

/-- Follows the path of an import: for a glob to a module, and else to something in any of the
    namespaces it looks in. -/
def followPath (i : Fin n) : Attempt n Unit := do
  if (imports.get i).isGlob then
    let _ ← globPath imports lookup ⟨i, [], []⟩
  else
    match (imports.get i).target? with
    | none => throw (.notImportable (imports.get i).pathText)
    | some target => let _ ← findSingle imports lookup ⟨i, [], []⟩ target

variable {imports} {lookup} {lookup' : Lookup n}

theorem Cuts.followPath (h : Cuts lookup lookup') (i : Fin n) :
    Attempt.Cuts (followPath imports lookup i) (followPath imports lookup' i) := by
  unfold Lookup.followPath
  split
  · exact (h.globPath _).bind fun _ => .refl _
  · split
    · exact .refl _
    · exact (h.findSingle _ _).bind fun _ => .refl _

end Lookup

end NameResolution
