import NameResolution.Proofs.Import.Congruence

/-! # Imports with and without warnings

    Whether private access is warned of is asked in the midst of resolving an
    import. Two runs of the import phase that differ in it come to the same
    tables and the same errors: between two runs that do the same, a warning is
    all that one of them adds. -/

namespace NameResolution

/-! ## Errors without advice -/

/-- A diagnostic without what it suggests. -/
def Diagnostic.bare : Diagnostic → Diagnostic
  | .unresolvedName name ns span _ _ => .unresolvedName name ns span [] none
  | .suffixMismatch name suffix span available _ => .suffixMismatch name suffix span available none
  | .ambiguousOverload name span available _ => .ambiguousOverload name span available none
  | diagnostic => diagnostic

/-- What is left of diagnostics without warnings and without advice. -/
def bareErrors (diagnostics : List Diagnostic) : List Diagnostic :=
  (diagnostics.filter (!·.isWarning)).map Diagnostic.bare

@[simp] theorem bareErrors_nil : bareErrors [] = [] := rfl

@[simp] theorem bareErrors_append (first others : List Diagnostic) :
    bareErrors (first ++ others) = bareErrors first ++ bareErrors others := by
  simp [bareErrors]

@[simp] theorem bareErrors_privateAccess (name module : String) (span : Span) :
    bareErrors [.privateAccess name module span] = [] := rfl

/-! ## Two runs of the import phase -/

variable {n : Nat}

/-- States of the import phase that differ in warnings at most. -/
structure ImportState.Alike (s s' : ImportState n) : Prop where
  defs : s'.defs = s.defs
  tree : s'.tree = s.tree
  statuses : s'.statuses = s.statuses
  errors : bareErrors s.diagnostics = bareErrors s'.diagnostics

namespace ImportState.Alike

variable {s s' s'' : ImportState n}

theorem refl (s : ImportState n) : s.Alike s := ⟨rfl, rfl, rfl, rfl⟩

theorem symm (h : s.Alike s') : s'.Alike s :=
  ⟨h.defs.symm, h.tree.symm, h.statuses.symm, h.errors.symm⟩

theorem trans (h : s.Alike s') (h' : s'.Alike s'') : s.Alike s'' :=
  ⟨h'.defs.trans h.defs, h'.tree.trans h.tree, h'.statuses.trans h.statuses,
    h.errors.trans h'.errors⟩

end ImportState.Alike

namespace Importing

/-- Where both start from such states and go through, they come to such states and the same. -/
def Alike {α : Type} (m m' : Importing n α) : Prop :=
  ∀ (s s' : ImportState n) (log log' : Log), s.Alike s' →
    Run True m s log fun a s₁ _ => Run True m' s' log' fun a' s₁' _ => a' = a ∧ s₁.Alike s₁'

namespace Alike

variable {α β : Type} {m m' : Importing n α}

theorem pure (a : α) : Alike (Pure.pure a : Importing n α) (Pure.pure a) :=
  fun _ _ _ _ alike => ⟨rfl, alike⟩

theorem bind {f f' : α → Importing n β} (h : Alike m m') (h' : ∀ a, Alike (f a) (f' a)) :
    Alike (m >>= f) (m' >>= f') := by
  intro s s' log log' alike
  rw [Run.bind_iff]
  refine (h s s' log log' alike).mono fun a s₁ log₁ first =>
    Run.true_iff.mpr fun b s₂ log₂ others => ?_
  rw [Run.bind_iff]
  refine first.mono fun a' s₁' log₁' ⟨same, alike₁⟩ => ?_
  rw [same]
  exact Run.true_iff.mp (h' a s₁ s₁' log₁ log₁' alike₁) b s₂ log₂ others

theorem lift (result : Except Fault α) :
    Alike (Importing.lift result : Importing n α) (Importing.lift result) := by
  intro s s' log log' alike
  rw [Importing.lift, Run.lift_iff]
  refine Yields.true_iff.mpr fun a _ => ?_
  rw [Run.lift_iff]
  exact Yields.true_iff.mpr fun a' _ => ⟨by simp_all, alike⟩

/-- Who reads the state sees the same tables in both. -/
theorem reads {f f' : ImportState n → Importing n α} (h : ∀ s s', s'.defs = s.defs →
    s'.tree = s.tree → Alike (f s) (f' s')) : Alike (get >>= f) (get >>= f') :=
  fun s s' log log' alike => h s s' alike.defs alike.tree s s' log log' alike

theorem modify {g : ImportState n → ImportState n}
    (h : ∀ s s', s.Alike s' → (g s).Alike (g s')) : Alike (modify g) (modify g) :=
  fun s s' _ _ alike => ⟨rfl, h s s' alike⟩

theorem emit (event event' : Event) :
    Alike (liftM (Logged.emit event) : Importing n Unit) (liftM (Logged.emit event')) :=
  fun _ _ _ _ alike => ⟨rfl, alike⟩

theorem note (opened searched : List (Fin n)) (task : ImportTask n) :
    Alike (Importing.note opened searched task) (Importing.note opened searched task) :=
  fun _ _ _ _ alike => ⟨rfl, alike⟩

theorem noteTables : Alike (n := n) Importing.noteTables Importing.noteTables :=
  fun _ _ _ _ alike => ⟨rfl, alike⟩

theorem forM {f f' : α → Importing n PUnit} (xs : List α) (h : ∀ x, Alike (f x) (f' x)) :
    Alike (xs.forM f) (xs.forM f') := by
  induction xs with
  | nil => exact pure _
  | cons x xs ih => exact (h x).bind fun _ => ih

end Alike

theorem alike_report (diagnostic : Diagnostic) :
    Alike (n := n) (report diagnostic) (report diagnostic) :=
  .modify fun s s' alike => { alike with
    errors := by rw [bareErrors_append, bareErrors_append, alike.errors] }

theorem alike_bindingOf (module : ModuleId) (ns : Namespace) (name : String) :
    Alike (n := n) (bindingOf module ns name) (bindingOf module ns name) := by
  refine .reads fun s s' _ tree => ?_
  rw [tree]
  exact .bind (.lift _) fun _ => .pure _

theorem alike_reportTaken (name : String) (span : Span) (first : Binding) :
    Alike (n := n) (reportTaken name span first) (reportTaken name span first) := by
  refine .reads fun s s' defs _ => ?_
  rw [defs]
  exact .bind (.lift _) alike_report

theorem alike_setDefs (defs : Definitions) : Alike (n := n) (setDefs defs) (setDefs defs) := by
  refine .reads fun s s' same _ => ?_
  rw [same]
  refine .bind (.forM _ fun _ => .emit _ _) fun _ => .bind ?_ fun _ => .noteTables
  exact .modify fun _ _ alike => { alike with defs := rfl }

theorem alike_setTree (tree : ModuleTree) : Alike (n := n) (setTree tree) (setTree tree) :=
  .bind (.modify fun _ _ alike => { alike with tree := rfl }) fun _ => .noteTables

theorem alike_bind (module : ModuleId) (ns : Namespace) (name : String) (binding : Binding) :
    Alike (n := n) (Importing.bind module ns name binding)
      (Importing.bind module ns name binding) := by
  refine .reads fun s s' _ tree => ?_
  rw [tree]
  refine .bind (.lift _) fun bound => ?_
  cases bound with
  | bound tree => exact .bind (alike_setTree tree) fun _ => .pure _
  | taken first => exact .pure _

theorem alike_bindImport (directive : Directive) (ns : Namespace) (name : Ident)
    (binding : Binding) (publicOnly : Bool) :
    Alike (n := n) (bindImport directive ns name binding publicOnly)
      (bindImport directive ns name binding publicOnly) := by
  refine .reads fun s s' defs tree => ?_
  rw [tree]
  refine .bind (.lift _) fun m => ?_
  split
  · exact .pure _
  · cases binding with
    | definition target | imported target =>
      dsimp only
      rw [defs]
      refine .bind (.lift _) fun made => .bind (alike_setDefs _) fun _ =>
        .bind (alike_bind _ _ _ _) fun taken => ?_
      cases taken with
      | none => exact .pure _
      | some first => exact alike_reportTaken _ _ _
    | overloads source =>
      rw [defs]
      refine .bind (alike_bindingOf _ _ _) fun bound => ?_
      split
      · refine .bind (.lift _) fun made => .bind (alike_setDefs _) fun _ => .forM _ fun taken => ?_
        exact alike_reportTaken _ _ _
      · exact alike_reportTaken _ _ _
      · refine .bind (.lift _) fun made => .bind (alike_setDefs _) fun _ =>
          .bind (alike_bind _ _ _ _) fun taken => ?_
        split
        · exact .lift _
        · exact .pure _

/-- One of the runs may warn where the other does not. -/
theorem alike_checkPrivate (imports : Imports n) (lint : Bool) (directive : Directive)
    (source : ModuleId) (binding : Binding) (name : String) :
    Alike (checkPrivate imports directive source binding name)
      (checkPrivate (imports.withLint lint) directive source binding name) := by
  intro s s' log log' alike
  have warns (imports : Imports n) (s : ImportState n) (log : Log) :
      Run True (checkPrivate imports directive source binding name) s log fun _ s₁ _ =>
        s.Alike s₁ := by
    unfold checkPrivate
    split
    · simp only [Run.bind_iff, Run.get_iff, lift, Run.lift_iff]
      refine Yields.trivial_of_true fun inside => ?_
      split
      · exact .refl s
      · simp only [Run.bind_iff, Run.lift_iff]
        refine Yields.trivial_of_true fun isPub => ?_
        split
        · exact .refl s
        · simp only [Run.bind_iff, Run.lift_iff]
          refine Yields.trivial_of_true fun m => Yields.trivial_of_true fun owner => ?_
          exact ⟨rfl, rfl, rfl, by simp⟩
    · exact .refl s
  refine (warns imports s log).mono fun _ s₁ _ warned => ?_
  refine (warns (imports.withLint lint) s' log').mono fun _ s₁' _ warned' => ?_
  exact ⟨rfl, warned.symm.trans (alike.trans warned')⟩

/-- That private access is warned of makes no difference to anything else. -/
theorem congruence_alike (imports : Imports n) (lint : Bool) :
    Congruence imports lint Alike where
  pure := .pure
  bind := .bind
  lift := .lift
  reads := .reads
  status i s s' _ _ alike := by
    refine ⟨?_, alike⟩
    rw [alike.statuses]
  note := .note
  setStatus opened searched i status := .bind (.note opened searched _) fun _ =>
    .modify fun s s' alike => { alike with statuses := by rw [alike.statuses] }
  report := alike_report
  emit event := .emit event event
  ends _ _ _ _ alike := ⟨rfl, alike⟩
  bindImport := alike_bindImport
  checkPrivate := alike_checkPrivate imports lint

end Importing

end NameResolution
