import NameResolution.Proofs.Import.Trail

/-! # Single imports come before globs

    A glob may bind a name early, as soon as anybody asks for it. By then every
    single import that would bind the name has come to its end, and what has
    been bound no glob touches. So no single import ever finds that a glob has
    been there before it, in whatever order the imports are resolved. -/

namespace NameResolution

variable {n : Nat} {labels : NodeId → String → Prop} {imports : Imports n}
  {start s s' : ImportState n} {i : Fin n} {directive : Directive} {name : Ident}
  {ns : Namespace} {source module : ModuleId} {binding first : Binding} {text : String}
  {d : Diagnostic}

/-- A diagnostic says that a name is taken, and shows a definition that `first` stands for. -/
def Diagnostic.Shows (defs : Definitions) (name : Ident) (first : Binding) (d : Diagnostic) :
    Prop :=
  ∃ suffix kind previous definition,
    d = .redefinition (name.name ++ suffix) name.span definition.ident.span kind ∧
      first.Refers defs previous ∧ defs.find? previous = some definition

theorem Diagnostic.Shows.keeps {defs defs' : Definitions} (h : d.Shows defs name first)
    (keeps : defs.Keeps defs') : d.Shows defs' name first := by
  obtain ⟨suffix, kind, previous, definition, eq, refers, found⟩ := h
  exact ⟨suffix, kind, previous, definition, eq, refers.keeps keeps, keeps.defined found⟩

/-- What has a name already is shown, a set of functions by one of them. -/
theorem redefinition_shows {defs : Definitions} {report : Diagnostic}
    (reported : redefinition defs name.name name.span first = .ok report) :
    report.Shows defs name first := by
  have whole : name.name = name.name ++ "" := String.append_empty.symm
  cases first with
  | definition id | imported id =>
    obtain ⟨definition, got, last⟩ := Except.bind_eq_ok.mp reported
    cases last
    exact ⟨"", _, id, definition, by rw [← whole], rfl, Definitions.find?_of_get got⟩
  | overloads set =>
    obtain ⟨span, spanned, last⟩ := Except.bind_eq_ok.mp reported
    cases last
    obtain ⟨members, held, rest⟩ := Except.bind_eq_ok.mp spanned
    split at rest
    · cases rest
    · next suffix id others listed =>
      obtain ⟨definition, got, last⟩ := Except.bind_eq_ok.mp rest
      cases last
      have mem : (suffix, id) ∈ members.toList := by
        rw [listed]
        exact List.mem_cons_self ..
      have mem := Definitions.member?_eq_some.mpr
        ⟨members, Definitions.getElem?_of_overloadSet held, OverloadSet.mem_toList.mp mem⟩
      exact ⟨"", _, id, definition, by rw [← whole], ⟨suffix, mem⟩, Definitions.find?_of_get got⟩

/-- A function whose suffix is taken is shown. -/
theorem redefinition_shows_member {defs : Definitions} {report : Diagnostic} {set : OverloadId}
    {suffix : String} {member : DefId} (mem : defs.member? set suffix = some member)
    (reported : redefinition defs (name.name ++ suffix) name.span (.definition member) =
      .ok report) : report.Shows defs name (.overloads set) := by
  obtain ⟨definition, got, last⟩ := Except.bind_eq_ok.mp reported
  cases last
  exact ⟨suffix, _, member, definition, rfl, ⟨suffix, mem⟩, Definitions.find?_of_get got⟩

namespace Importing

/-! ## Names that are taken -/

/-- What is reported about an import is what its name was bound to. -/
theorem Outcome.shows {publicOnly : Bool}
    (outcome : Outcome directive ns name publicOnly s binding s')
    (sorted : binding.Sorted s.defs ns) :
    ∃ more, s'.diagnostics = s.diagnostics ++ more ∧ ∀ d ∈ more, ∃ first,
      s.tree.bindingAt? directive.module ns name.name = some first ∧
        d.Shows s'.defs name first := by
  have nothing {diagnostics : List Diagnostic} (same : diagnostics = s.diagnostics) :
      ∃ more, diagnostics = s.diagnostics ++ more ∧ ∀ d ∈ more, ∃ first,
        s.tree.bindingAt? directive.module ns name.name = some first ∧
          d.Shows s'.defs name first :=
    ⟨[], by rw [same, List.append_nil], List.forall_mem_nil _⟩
  cases outcome with
  | refused _ _ _ => exact nothing rfl
  | aliased _ _ _ _ _ => exact nothing rfl
  | opened _ _ => exact nothing rfl
  | aliasTaken _ _ taken reported =>
    refine ⟨_, rfl, fun d mem => ⟨_, taken, ?_⟩⟩
    rw [List.mem_singleton.mp mem]
    exact redefinition_shows reported
  | blocked taken _ reported =>
    obtain ⟨rfl, -⟩ := sorted
    refine ⟨_, rfl, fun d mem => ⟨_, taken, ?_⟩⟩
    rw [List.mem_singleton.mp mem]
    exact redefinition_shows reported
  | @joined _ existing merged taken defs reports bound made reported =>
    obtain ⟨rfl, -⟩ := sorted
    obtain ⟨isExisting, -⟩ := Yields.true_iff.mp Definitions.importOverloads_copies _ made
    have members := Yields.true_iff.mp Definitions.importOverloads_taken _ made
    have isExisting : merged = existing := isExisting
    subst isExisting
    refine ⟨_, rfl, fun d mem => ⟨_, bound, ?_⟩⟩
    obtain ⟨k, lt, rfl⟩ := List.getElem_of_mem mem
    have report := reported.get (by rw [reported.length_eq]; exact lt) lt
    exact redefinition_shows_member (members _ (List.getElem_mem _)) report

theorem Brings.shows (brings : Brings directive name ns source binding s s')
    (sorted : binding.Sorted s.defs ns) :
    ∃ more, s'.diagnostics = s.diagnostics ++ more ∧ ∀ d ∈ more, d.isRedefinition = true →
      ∃ first, s.tree.bindingAt? directive.module ns name.name = some first ∧
        d.Shows s'.defs name first := by
  obtain @⟨_, _, warnings, -, -, others, outcome⟩ := brings
  obtain ⟨more, eq, shows⟩ := outcome.shows sorted
  refine ⟨warnings ++ more, by rw [eq, List.append_assoc], fun d mem isRedefinition => ?_⟩
  rcases List.mem_append.mp mem with mem | mem
  · rw [others d mem] at isRedefinition
    cases isRedefinition
  · exact shows d mem

theorem BringsAll.shows {found : List (Namespace × ModuleId × Binding)}
    (brings : BringsAll directive name found s s') (prepared : Prepared labels directive found s) :
    ∃ more, s'.diagnostics = s.diagnostics ++ more ∧ ∀ d ∈ more, d.isRedefinition = true →
      ∃ ns first, s'.tree.bindingAt? directive.module ns name.name = some first ∧
        d.Shows s'.defs name first := by
  induction brings with
  | nil => exact ⟨[], (List.append_nil _).symm, List.forall_mem_nil _⟩
  | @cons ns _ _ _ s s₁ s' first others ih =>
    obtain ⟨later, rest⟩ := prepared.first first
    have later₁ := others.later rest
    obtain ⟨more, eq, shows⟩ := first.shows (prepared.sorted _ (List.mem_cons_self ..))
    obtain ⟨more', eq', shows'⟩ := ih rest
    refine ⟨more ++ more', by rw [eq', eq, List.append_assoc], fun d mem isRedefinition => ?_⟩
    rcases List.mem_append.mp mem with mem | mem
    · obtain ⟨b, bound, shown⟩ := shows d mem isRedefinition
      exact ⟨ns, b, later₁.tree_keeps.bound (later.tree_keeps.bound bound),
        shown.keeps later₁.defs_keeps⟩
    · exact shows' d mem isRedefinition

end Importing

/-! ## Who has bound a name -/

open Importing

variable {trail : List (Occasion n)} {o : Occasion n} {target : ImportTarget}
  {found : List (Namespace × ModuleId × Binding)}

/-- Some definition that a name stands for has been made by a glob. -/
def ByGlob (imports : Imports n) (trail : List (Occasion n)) (defs : Definitions)
    (binding : Binding) : Prop :=
  ∃ o ∈ trail, (imports.get o.index).isGlob = true ∧ ∃ id, o.Makes id ∧ binding.Refers defs id

namespace Trail

/-- Where a glob has made something that a name stands for it has bound the name, and when it did
    nobody was still to bind it. -/
theorem exists_binds_of_byGlob (h : Trail imports start trail s)
    (inOrder : InOrder labels imports start)
    (bound : s.tree.bindingAt? module ns text = some binding)
    (byGlob : ByGlob imports trail s.defs binding) :
    ∃ o ∈ trail, (imports.get o.index).isGlob = true ∧ o.Binds module ns text binding ∧
      AllSettled imports o.after module text := by
  obtain ⟨o, mem, isGlob, id, ⟨unknown, known⟩, refers⟩ := byGlob
  have inOrder₀ := h.inOrder_before inOrder mem
  have inOrder₁ := h.inOrder_after inOrder mem
  have move := h.move mem
  obtain ⟨bound₁, refers₁⟩ := (h.after mem).refers_of_known inOrder₁ known bound refers
  have free : o.before.tree.bindingAt? module ns text = none := by
    cases before : o.before.tree.bindingAt? module ns text with
    | none => rfl
    | some b =>
      -- to a name that is bound the glob would have added nothing
      rw [(inOrder₀.move move).tree_keeps.bound before] at bound₁
      cases bound₁
      have refers₀ := move.refers_of_bound isGlob inOrder₀ before refers₁
      have good := inOrder₀.sound.intact.bindings before
      exact absurd (refers₀.known inOrder₀.sound.intact.validDefs good) unknown
  exact ⟨o, mem, isGlob, ⟨free, bound₁⟩, move.settled isGlob free bound₁⟩

/-- What the name of a single import is bound to when it has come to its end no glob has made. -/
theorem not_byGlob (h : Trail imports start trail s) (inOrder : InOrder labels imports start)
    (mem : o ∈ trail) (resolves : o.Resolves imports target module found)
    (bound : o.after.tree.bindingAt? (imports.get o.index).module ns target.name.name =
      some binding) : ¬ ByGlob imports trail s.defs binding := by
  intro byGlob
  have bound' := (((h.inOrder_after inOrder mem).path (h.after mem)).tree_keeps).bound bound
  obtain ⟨o', mem', isGlob, ⟨free, -⟩, settled⟩ := h.exists_binds_of_byGlob inOrder bound' byGlob
  rcases h.order mem mem' with rfl | earlier | later
  · rw [resolves.single] at isGlob
    cases isGlob
  · -- a glob that came before has waited for this import
    exact (settled.steps earlier o.index resolves.slot).2 resolves.inProgress
  · -- and one that comes after finds the name bound
    have keeps := ((h.inOrder_after inOrder mem).path later).tree_keeps
    rw [keeps.bound bound] at free
    cases free

theorem reported (h : Trail imports start trail s) (none : start.diagnostics = [])
    (mem : d ∈ s.diagnostics) (isRedefinition : d.isRedefinition = true) :
    ∃ o ∈ trail, o.Reports d := by
  induction h with
  | start =>
    rw [none] at mem
    cases mem
  | @moves trail i s s' _ move ih =>
    obtain ⟨more, eq⟩ := move.diagnostics
    rw [eq] at mem
    rcases List.mem_append.mp mem with mem | mem
    · obtain ⟨o, mem', reports⟩ := ih mem
      exact ⟨o, List.mem_append_left _ mem', reports⟩
    · exact ⟨⟨i, s, s'⟩, List.mem_append_right _ (List.mem_singleton_self _), more, eq, mem⟩
  | reports _ others ih =>
    rcases List.mem_append.mp mem with mem | mem
    · exact ih mem
    · rw [others d mem] at isRedefinition
      cases isRedefinition

end Trail

/-! ## The whole phase -/

/-- On a trail of the import phase no glob ever stands in the way of a single import. -/
structure SinglesFirst (imports : Imports n) (trail : List (Occasion n)) (s : ImportState n) :
    Prop where
  /-- Whatever is reported as taken a directive has reported -/
  reported : ∀ d ∈ s.diagnostics, d.isRedefinition = true → ∃ o ∈ trail, o.Reports d
  /-- It was a single import, and what it has found there no glob has made -/
  redefinitions : ∀ o ∈ trail, ∀ d, o.Reports d → d.isRedefinition = true →
    ∃ target ns first, (imports.get o.index).target? = some target ∧
      s.tree.bindingAt? (imports.get o.index).module ns target.name.name = some first ∧
      d.Shows s.defs target.name first ∧ ¬ ByGlob imports trail s.defs first
  /-- A glob leaves whatever is bound, and adds no functions to it -/
  kept : ∀ o ∈ trail, (imports.get o.index).isGlob = true → ∀ module ns text binding,
    o.before.tree.bindingAt? module ns text = some binding →
      o.after.tree.bindingAt? module ns text = some binding ∧
        ∀ set suffix, binding = .overloads set →
          o.after.defs.member? set suffix = o.before.defs.member? set suffix
  /-- A single import that is done has come to its end on some occasion -/
  resolved : ∀ i source, (imports.get i).isGlob = false → s.statusOf i = .done source →
    ∃ o ∈ trail, o.index = i ∧ ∃ target module found, o.Resolves imports target module found
  /-- Where it has found something its name is bound, and not by a glob -/
  bound : ∀ o ∈ trail, ∀ target module found, o.Resolves imports target module found →
    ∀ p ∈ found, Refuses s.tree (imports.get o.index).module p.1 ∨
      ∃ binding, s.tree.bindingAt? (imports.get o.index).module p.1 target.name.name =
          some binding ∧
        ¬ ByGlob imports trail s.defs binding

namespace Trail

theorem redefinitions (h : Trail imports start trail s) (inOrder : InOrder labels imports start)
    (mem : o ∈ trail) (reports : o.Reports d) (isRedefinition : d.isRedefinition = true) :
    ∃ target ns first, (imports.get o.index).target? = some target ∧
      s.tree.bindingAt? (imports.get o.index).module ns target.name.name = some first ∧
      d.Shows s.defs target.name first ∧ ¬ ByGlob imports trail s.defs first := by
  have inOrder₀ := h.inOrder_before inOrder mem
  have later := (h.inOrder_after inOrder mem).path (h.after mem)
  obtain ⟨i, s₀, s₁⟩ := o
  obtain ⟨more, eq, mem'⟩ := reports
  have none {P : Prop} (same : s₁.diagnostics = s₀.diagnostics) : P := by
    have empty : s₀.diagnostics ++ [] = s₀.diagnostics ++ more := by
      rw [List.append_nil]
      exact same.symm.trans eq
    rw [← List.append_cancel_left empty] at mem'
    cases mem'
  have move : Move imports i s₀ s₁ := h.move mem
  cases move with
  | opens _ => exact none rfl
  | fails _ _ => exact none rfl
  | reads _ _ => exact none rfl
  | binds inProgress hasTarget finds brings =>
    obtain ⟨more', eq', shows⟩ := brings.shows (inOrder₀.prepared finds)
    obtain rfl := List.append_cancel_left (eq.symm.trans eq')
    obtain ⟨ns, first, bound, shown⟩ := shows d mem' isRedefinition
    have noGlob : ¬ ByGlob imports trail s.defs first :=
      h.not_byGlob inOrder mem ⟨inProgress, hasTarget, finds, _, brings, rfl⟩ bound
    exact ⟨_, ns, first, hasTarget, later.tree_keeps.bound bound, shown.keeps later.defs_keeps,
      noGlob⟩
  | spreads _ _ there free _ _ brings =>
    -- a glob finds its name free, so it has nothing to report
    obtain ⟨more', eq', shows⟩ := brings.shows (inOrder₀.sound.sorted.bindings there)
    obtain rfl := List.append_cancel_left (eq.symm.trans eq')
    obtain ⟨first, bound, -⟩ := shows d mem' isRedefinition
    rw [free] at bound
    cases bound

theorem bound_of_resolves (h : Trail imports start trail s) (inOrder : InOrder labels imports start)
    (mem : o ∈ trail) (resolves : o.Resolves imports target module found)
    {p : Namespace × ModuleId × Binding} (isFound : p ∈ found) :
    Refuses s.tree (imports.get o.index).module p.1 ∨
      ∃ binding, s.tree.bindingAt? (imports.get o.index).module p.1 target.name.name =
          some binding ∧
        ¬ ByGlob imports trail s.defs binding := by
  have later := (h.inOrder_after inOrder mem).path (h.after mem)
  have prepared := (h.inOrder_before inOrder mem).prepared resolves.finds
  obtain ⟨s₁, brings, eq⟩ := resolves.brings
  have sameTree : o.after.tree = s₁.tree := by
    rw [eq]
    rfl
  rcases brings.bound prepared isFound with refused | ⟨binding, bound⟩
  · rw [← sameTree] at refused
    exact .inl (refused.grows later.tree)
  · rw [← sameTree] at bound
    exact .inr ⟨binding, later.tree_keeps.bound bound, h.not_byGlob inOrder mem resolves bound⟩

theorem singlesFirst (h : Trail imports start trail s) (inOrder : InOrder labels imports start)
    (pending : ∀ i, start.statusOf i = .pending) (none : start.diagnostics = []) :
    SinglesFirst imports trail s where
  reported d mem isRedefinition := h.reported none mem isRedefinition
  redefinitions o mem d reports isRedefinition := h.redefinitions inOrder mem reports isRedefinition
  kept o mem isGlob module ns text binding bound := by
    have inOrder₀ := h.inOrder_before inOrder mem
    have move := h.move mem
    refine ⟨(inOrder₀.move move).tree_keeps.bound bound, fun set suffix isSet => ?_⟩
    subst isSet
    obtain ⟨rfl, -⟩ := inOrder₀.sound.sorted.bindings bound
    exact move.member?_eq_of_isGlob isGlob inOrder₀ bound suffix
  resolved i source single done := h.exists_resolves pending single done
  bound o mem target module found resolves p isFound :=
    h.bound_of_resolves inOrder mem resolves isFound

end Trail

/-- Over what the first pass makes of any program, and with its imports in any order: the import
    phase leaves a trail, and on none that leads to its result does a glob stand in the way of a
    single import. -/
theorem single_imports_beat_globs {program : Program} {built : DeclareState}
    {log log' : Log} (declared : declareProgram .empty .new program log = .ok built log')
    {directives : List Directive} (reordered : directives.Perm built.directives) {lint : Bool}
    {s : ImportState directives.length} {log₀ log₁ : Log}
    (run : resolveImports built.defs built.tree lint directives log₀ = .ok s log₁) :
    (∃ trail, Trail (Imports.ofList directives lint) (.start _ built.defs built.tree) trail s) ∧
      ∀ trail, Trail (Imports.ofList directives lint) (.start _ built.defs built.tree) trail s →
        SinglesFirst (Imports.ofList directives lint) trail s := by
  obtain ⟨inOrder, goes⟩ := resolveImports_goes declared reordered run
  refine ⟨goes.steps.exists_trail, fun trail h => ?_⟩
  exact h.singlesFirst inOrder (ImportState.statusOf_start built.defs built.tree) rfl

/-- Somebody asks for a name early that a module has from a glob and from a single import:

        use a::x;
        mod b { pub struct x; }
        mod c { pub struct x; }
        mod a { pub use super::b::*; pub use super::c::x; } -/
def bothOffer : Program :=
  ⟨⟨0⟩, ⟨0, 18⟩,
    [.useDecl ⟨⟨1⟩, false, ⟨1, 1⟩⟩
      (.path ⟨2⟩ ⟨2, 1⟩ ⟨false, [⟨.name "a", ⟨2, 1⟩⟩, ⟨.name "x", ⟨2, 1⟩⟩]⟩ none),
    .mod ⟨⟨3⟩, true, ⟨3, 1⟩⟩ ⟨"b", ⟨3, 1⟩⟩ [.struct ⟨⟨4⟩, true, ⟨4, 1⟩⟩ ⟨"x", ⟨4, 1⟩⟩ [] []],
    .mod ⟨⟨5⟩, true, ⟨5, 1⟩⟩ ⟨"c", ⟨5, 1⟩⟩ [.struct ⟨⟨6⟩, true, ⟨6, 1⟩⟩ ⟨"x", ⟨6, 1⟩⟩ [] []],
    .mod ⟨⟨7⟩, true, ⟨7, 1⟩⟩ ⟨"a", ⟨7, 1⟩⟩
      [.useDecl ⟨⟨8⟩, true, ⟨8, 1⟩⟩
        (.glob ⟨9⟩ ⟨9, 1⟩ (some ⟨false, [⟨.super, ⟨9, 1⟩⟩, ⟨.name "b", ⟨9, 1⟩⟩]⟩)),
      .useDecl ⟨⟨10⟩, true, ⟨10, 1⟩⟩
        (.path ⟨11⟩ ⟨11, 1⟩
          ⟨false, [⟨.super, ⟨11, 1⟩⟩, ⟨.name "c", ⟨11, 1⟩⟩, ⟨.name "x", ⟨11, 1⟩⟩]⟩ none)]]⟩

theorem single_imports_beat_globs_both_offer :
    ∃ built log', declareProgram .empty .new bothOffer .empty = .ok built log' ∧
      built.directives.length = 3 ∧
      ∃ s log₁, resolveImports built.defs built.tree true built.directives.reverse .empty =
          .ok s log₁ ∧
        (∃ trail, Trail (Imports.ofList built.directives.reverse true)
          (.start _ built.defs built.tree) trail s) ∧
        ∀ trail, Trail (Imports.ofList built.directives.reverse true)
            (.start _ built.defs built.tree) trail s →
          SinglesFirst (Imports.ofList built.directives.reverse true) trail s := by
  have checked : ∃ built log', declareProgram .empty .new bothOffer .empty = .ok built log' ∧
      (built.directives.length == 3) = true := Logged.exists_of_check (by decide +kernel)
  obtain ⟨built, log', declared, three⟩ := checked
  have reversed := List.reverse_perm built.directives
  obtain ⟨s, log₁, run⟩ := exists_resolved declared reversed true .empty
  exact ⟨built, log', declared, by simpa using three, s, log₁, run,
    single_imports_beat_globs declared reversed run⟩

end NameResolution
