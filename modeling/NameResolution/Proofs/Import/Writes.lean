import NameResolution.Proofs.Declaration.Writes
import NameResolution.Proofs.Import.Congruence
import NameResolution.Proofs.Import.Overloads

/-! # What the import phase writes

    Lookups of the import phase read the tables in the midst of writing them.
    Whoever reads may rely on what he has read: from whatever state any part of
    the phase starts, it changes the tables by operations that only write where
    there has been nothing, and at every moment that is noted they are what the
    operations so far have made of them. With what the first pass does this makes
    one history, from tables with nothing in them to those that the second pass
    works with. -/

namespace NameResolution

variable {n : Nat}

/-- The tables that the import phase has come to. -/
def ImportState.tables (s : ImportState n) : Definitions × ModuleTree := (s.defs, s.tree)

namespace Importing

/-- A part of the import phase notes what it does to the tables. -/
abbrev Tells {α : Type} (m : Importing n α) (s : ImportState n) : Prop :=
  Narrates ImportState.tables m s

variable {imports : Imports n} {s : ImportState n} {α : Type}

/-- The new definitions are logged, and then the table is taken. -/
theorem tells_setDefs {defs : Definitions} (operation : TableOperation s.tables (defs, s.tree))
    {f : Unit → Importing n α} (h : Tells (f ()) { s with defs }) :
    Tells (setDefs defs >>= f) s := by
  have emits : Tells ((defs.since s.defs.size).forM fun d =>
      (liftM (Logged.emit (.defined d)) : Importing n Unit)) s :=
    .forM _ (fun _ _ s => .emit _ s) s
  have writes : Tells (setDefs defs) s := by
    refine .reads (emits.bind_from (fun log => Run.forM _ rfl fun _ _ _ _ eq => eq) fun _ => ?_)
    exact .note { s with defs } (fun _ => rfl) rfl (.single operation)
  exact writes.bind_from (fun log => (run_setDefs_eq defs).mono fun _ _ _ ended => ended.1)
    fun _ => h

theorem tells_setTree {tree : ModuleTree} (operation : TableOperation s.tables (s.defs, tree))
    {f : Unit → Importing n α} (h : Tells (f ()) { s with tree }) :
    Tells (setTree tree >>= f) s := by
  have writes : Tells (setTree tree) s :=
    .note { s with tree } (fun _ => rfl) rfl (.single operation)
  exact writes.bind_from (fun _ => rfl) fun _ => h

theorem tells_reportTaken (name : String) (span : Span) (first : Binding) (s : ImportState n) :
    Tells (reportTaken name span first) s :=
  .reads <| .lift_bind fun _ _ => .modify rfl

theorem tells_bindingOf (module : ModuleId) (ns : Namespace) (name : String)
    (s : ImportState n) : Tells (bindingOf module ns name) s :=
  .reads <| .lift_bind fun _ _ => .pure _ _

theorem tells_bind (module : ModuleId) (ns : Namespace) (name : String) (binding : Binding)
    (s : ImportState n) : Tells (Importing.bind module ns name binding) s := by
  refine .reads (.lift_bind fun bound made => ?_)
  cases bound with
  | bound tree => exact tells_setTree (.bind made) (.pure _ _)
  | taken first => exact .pure _ _

/-- An alias comes before its name, and functions are in a set before that gets one. -/
theorem tells_bindImport (directive : Directive) (ns : Namespace) (name : Ident)
    (binding : Binding) (publicOnly : Bool) (s : ImportState n) :
    Tells (bindImport directive ns name binding publicOnly) s := by
  refine .reads (.lift_bind fun m _ => ?_)
  split
  · exact .pure _ _
  · cases binding with
    | definition target | imported target =>
      refine .lift_bind ?_
      rintro ⟨id, defs⟩ made
      refine tells_setDefs (.defineAlias made) ?_
      refine (tells_bind _ _ _ _ _).andThen fun first s₁ => ?_
      split
      · exact tells_reportTaken _ _ _ s₁
      · exact .pure _ _
    | overloads source =>
      refine (tells_bindingOf _ _ _ s).bind_from
        (fun log => reads_bindingOf.mono fun _ _ _ read => read.1.symm) fun found => ?_
      split
      · refine .lift_bind ?_
        rintro ⟨into, taken, defs⟩ made
        refine tells_setDefs (.importOverloads made) ?_
        exact .forM _ (fun t _ => tells_reportTaken _ _ _) _
      · exact tells_reportTaken _ _ _ _
      · refine .lift_bind ?_
        rintro ⟨into, taken, defs⟩ made
        refine tells_setDefs (.importOverloads made) ?_
        refine (tells_bind _ _ _ _ _).andThen fun first s₁ => ?_
        split
        · exact .lift _ _
        · exact .pure _ _

theorem tells_checkPrivate (imports : Imports n) (directive : Directive) (source : ModuleId)
    (binding : Binding) (name : String) (s : ImportState n) :
    Tells (checkPrivate imports directive source binding name) s := by
  unfold checkPrivate
  split
  · refine .reads (.lift_bind fun inside _ => ?_)
    split
    · exact .pure _ _
    · refine .lift_bind fun isPub _ => ?_
      split
      · exact .pure _ _
      · exact .lift_bind fun m _ => .lift_bind fun owner _ => .modify rfl
  · exact .pure _ _

/-- To note what is done to the tables is kept when parts are put together. -/
theorem congruence_tells (imports : Imports n) :
    Congruence imports imports.lintPrivateAccess fun m _ => ∀ s, Tells m s where
  pure := .pure
  bind first others s := (first s).andThen others
  lift := .lift
  reads h s := h s s rfl rfl s
  status _ _ := .reads (.pure _ _)
  note _ _ _ s := .note s (fun _ => rfl) rfl .refl
  setStatus _ _ i status s :=
    .note (s.withStatus i status) (fun _ => rfl) rfl .refl
  report _ _ := .modify rfl
  emit := .emit
  ends s := .reads (.emit _ s)
  bindImport := tells_bindImport
  checkPrivate := tells_checkPrivate imports

end Importing

/-- The import phase notes what it does to the tables. -/
theorem resolveImports_recounts (defs : Definitions) (tree : ModuleTree) (lint : Bool)
    (directives : List Directive) (events : Array Event) :
    ∃ outcome events' noted tables',
      (resolveImports defs tree lint directives).Recounts events outcome events' noted ∧
        Leads (defs, tree) noted tables' ∧
        ∀ resolved, outcome = .ok resolved → resolved.tables = tables' :=
  ((Importing.congruence_tells (.ofList directives lint)).allDirectives _).runs events

/-! ## One history -/

/-- The tables are written once. As far as the first pass comes in a program, whether or not it
    goes through, the tables at each moment it notes are moments of one history. Where it goes
    through, so does the import phase, with the imports in any order: each moment it notes, at any
    depth, goes on with that history, and so do the tables in the end. -/
theorem tables_are_written_once (program : Program) (events : Array Event) :
    ∃ outcome events' noted,
      (declareProgram .empty .new program).Recounts events outcome events' noted ∧
      (∃ history, History history ∧
        ((.empty, .new) :: noted.map Moment.tables).Sublist history) ∧
      ∀ built, outcome = .ok built → ∀ directives : List Directive,
        directives.Perm built.directives → ∀ lint events₀, ∃ resolved events₁ noted',
          (resolveImports built.defs built.tree lint directives).Recounts events₀ (.ok resolved)
            events₁ noted' ∧
          ∃ history, History history ∧ history.head? = some (.empty, .new) ∧
            ((.empty, .new) :: (noted ++ noted').map Moment.tables).Sublist history ∧
            history.getLast? = some resolved.tables := by
  obtain ⟨outcome, events', noted, tables', recounts, leads, ends⟩ :=
    declareProgram_recounts .empty .new program events
  obtain ⟨history, isHistory, sublist, -⟩ := leads.exists_history
  refine ⟨outcome, events', noted, recounts, ⟨history, isHistory, sublist⟩, ?_⟩
  rintro built rfl directives reordered lint events₀
  obtain ⟨outcome', events₁, noted', tables'', recounts', leads', ends'⟩ :=
    resolveImports_recounts built.defs built.tree lint directives events₀
  -- the import phase goes through, and goes on with the tables of the first pass
  obtain ⟨resolved, log₁, run⟩ :=
    exists_resolved (recounts none) reordered lint ⟨events₀, none⟩
  obtain ⟨rfl, -⟩ := recounts'.of_run run
  obtain rfl : (built.defs, built.tree) = tables' := ends built rfl
  obtain rfl := ends' resolved rfl
  obtain ⟨history, isHistory, sublist, first, last⟩ := (leads.trans leads').exists_history
  exact ⟨resolved, events₁, noted', recounts', history, isHistory, first, sublist, last⟩

/-- Before the import phase has come to it a name is free, and from some moment on it is bound. -/
theorem tables_are_written_once_fed_back :
    ∃ built events' noted resolved events₁ noted' history,
      (declareProgram .empty .new fedBack).Recounts #[] (.ok built) events' noted ∧
      (resolveImports built.defs built.tree true built.directives).Recounts #[] (.ok resolved)
        events₁ noted' ∧
      (∃ moment ∈ noted', moment.tables.2.bindingAt? ⟨2⟩ .value "f" = none) ∧
      (∃ moment ∈ noted', moment.tables.2.bindingAt? ⟨2⟩ .value "f" = some (.overloads ⟨2⟩)) ∧
      History history ∧ history.head? = some (.empty, .new) ∧
      ((.empty, .new) :: (noted ++ noted').map Moment.tables).Sublist history ∧
      history.getLast? = some resolved.tables := by
  obtain ⟨outcome, events', noted, recounts, -, goesOn⟩ := tables_are_written_once fedBack #[]
  obtain ⟨built, rfl, checked⟩ := recounts.of_check
    (fun built _ => (resolveImports built.defs built.tree true built.directives).passesNoting
      fun _ noted =>
        noted.any (fun moment => moment.tables.2.bindingAt? ⟨2⟩ .value "f" == none) &&
          noted.any fun moment =>
            moment.tables.2.bindingAt? ⟨2⟩ .value "f" == some (.overloads ⟨2⟩))
    (by decide +kernel)
  obtain ⟨resolved, events₁, noted', recounts', history, isHistory, first, sublist, last⟩ :=
    goesOn built rfl built.directives (.refl _) true #[]
  obtain ⟨_, -, both⟩ := recounts'.of_check _ checked
  simp only [Bool.and_eq_true, List.any_eq_true, beq_iff_eq] at both
  exact ⟨built, events', noted, resolved, events₁, noted', history, recounts, recounts', both.1,
    both.2, isHistory, first, sublist, last⟩

end NameResolution
