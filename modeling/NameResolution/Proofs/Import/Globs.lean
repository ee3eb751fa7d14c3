import NameResolution.Proofs.Import.Ending
import NameResolution.Proofs.Import.Precedence

/-! # What globs bring in

    The last round of the import phase asks every glob for every name and binds
    nothing. So by then each glob has brought in all that its module may see.
    Whatever a glob has bound, early or late, it has read off its source at that
    moment, and this stands for the same in the end: nobody was still to bind the
    name when the glob did. -/

namespace NameResolution

variable {n : Nat} {labels : NodeId → String → Prop} {imports : Imports n}
  {start s s' : ImportState n} {log log' : Log} {i : Fin n} {home source module : ModuleId}
  {ns : Namespace} {name text : String} {binding own : Binding}

namespace Importing

/-! ## Globs at rest -/

/-- What a module may see of another one: everything from inside, and otherwise what is `pub`. -/
def Visible (s : ImportState n) (home source : ModuleId) (binding : Binding) : Prop :=
  s.tree.isWithin home source = .ok true ∨ isPub s.defs binding = .ok true

/-- A name is bound in a module if the module may see it, and may take it. -/
def TakenOver (s : ImportState n) (home source : ModuleId) (ns : Namespace) (name : String)
    (binding : Binding) : Prop :=
  Visible s home source binding → ¬ Refuses s.tree home ns →
    ∃ own, s.tree.bindingAt? home ns name = some own

/-- A module has taken over all names of another one. -/
def Closed (s : ImportState n) (home source : ModuleId) : Prop :=
  ∀ ns name binding, s.tree.bindingAt? source ns name = some binding →
    TakenOver s home source ns name binding

/-- A glob that tells of no change has nothing to bring in. -/
theorem run_globBind_rests :
    Run True (Lookup.globBind imports i source ns name binding) s log fun changed s' _ =>
      changed = false →
        s' = s ∧ TakenOver s (imports.get i).module source ns name binding := by
  simp only [Lookup.globBind, lift, Run.bind_iff, Run.get_iff, Run.lift_iff]
  refine Yields.true_iff.mpr fun m got => ?_
  have found := ModuleTree.find?_of_get got
  split
  · next fits =>
    rw [Run.pure_iff]
    refine fun _ => ⟨rfl, fun _ takes => ?_⟩
    rcases (Bool.or_eq_true _ _).mp fits with bound | refused
    · rw [Module.has_eq_isSome_find?] at bound
      rw [ModuleTree.bindingAt?_of_find? found]
      exact Option.isSome_iff_exists.mp bound
    · obtain ⟨lifetime, block⟩ := (Bool.and_eq_true _ _).mp refused
      exact absurd ⟨beq_iff_eq.mp lifetime, m, found, block⟩ takes
  · simp only [Run.bind_iff, Run.lift_iff]
    refine Yields.true_iff.mpr fun inside within => Yields.true_iff.mpr fun pub isPub => ?_
    split
    · simp only [Run.bind_iff, Run.pure_iff]
      exact run_bindImport_outcome.mono fun _ _ _ _ changed => by cases changed
    · next hidden =>
      rw [Run.pure_iff]
      refine fun _ => ⟨rfl, fun visible _ => ?_⟩
      rw [Visible, within, isPub] at visible
      simp at visible hidden
      simp [hidden] at visible

theorem run_importNames_rests (names : List (String × Binding)) {s : ImportState n}
    {log : Log} :
    Run True (importNames imports i source ns names) s log fun changed s' _ =>
      changed = false →
        s' = s ∧ ∀ p ∈ names, TakenOver s (imports.get i).module source ns p.1 p.2 := by
  induction names generalizing s log with
  | nil => exact fun _ => ⟨rfl, List.forall_mem_nil _⟩
  | cons p names ih =>
    simp only [importNames, Run.bind_iff, Run.pure_iff]
    apply run_globBind_rests.mono
    intro first s₁ log₁ firstRests
    apply ih.mono
    intro later s₂ log₂ laterRests unchanged
    obtain ⟨noFirst, noLater⟩ := Bool.or_eq_false_iff.mp unchanged
    obtain ⟨rfl, taken⟩ := firstRests noFirst
    obtain ⟨rfl, others⟩ := laterRests noLater
    exact ⟨rfl, List.forall_mem_cons.mpr ⟨taken, others⟩⟩

theorem run_importNamespaces_rests (namespaces : List Namespace) {s : ImportState n}
    {log : Log} :
    Run True (importNamespaces imports i source namespaces) s log fun changed s' _ =>
      changed = false → s' = s ∧ ∀ ns ∈ namespaces, ∀ name binding,
        s.tree.bindingAt? source ns name = some binding →
          TakenOver s (imports.get i).module source ns name binding := by
  induction namespaces generalizing s log with
  | nil => exact fun _ => ⟨rfl, List.forall_mem_nil _⟩
  | cons ns namespaces ih =>
    simp only [importNamespaces, lift, Run.bind_iff, Run.get_iff, Run.lift_iff, Run.pure_iff]
    refine Yields.true_iff.mpr fun m got => ?_
    have found := ModuleTree.find?_of_get got
    apply (run_importNames_rests (m.bindings ns)).mono
    intro first s₁ log₁ firstRests
    apply ih.mono
    intro later s₂ log₂ laterRests unchanged
    obtain ⟨noFirst, noLater⟩ := Bool.or_eq_false_iff.mp unchanged
    obtain ⟨rfl, taken⟩ := firstRests noFirst
    obtain ⟨rfl, others⟩ := laterRests noLater
    refine ⟨rfl, List.forall_mem_cons.mpr ⟨fun name binding bound => ?_, others⟩⟩
    rw [ModuleTree.bindingAt?_of_find? found] at bound
    exact taken (name, binding) (Std.TreeMap.mem_toList_iff_getElem?_eq_some.mpr bound)

/-- A round without a change leaves everything as it is, and finds nothing to bring in. -/
theorem run_applyGlobs_rests (globs : List (Fin n × ModuleId)) {s : ImportState n}
    {log : Log} :
    Run True (applyGlobs imports globs) s log fun changed s' _ =>
      changed = false → s' = s ∧ ∀ glob ∈ globs, glob.2 ≠ (imports.get glob.1).module →
        Closed s (imports.get glob.1).module glob.2 := by
  induction globs generalizing s log with
  | nil => exact fun _ => ⟨rfl, List.forall_mem_nil _⟩
  | cons glob globs ih =>
    obtain ⟨i, source⟩ := glob
    have applied : Run True (applyGlob imports i source) s log fun changed s' _ =>
        changed = false → s' = s ∧
          (source ≠ (imports.get i).module → Closed s (imports.get i).module source) := by
      unfold applyGlob
      split
      · next itself => exact fun _ => ⟨rfl, fun other => absurd itself other⟩
      · apply (run_importNamespaces_rests Namespace.all).mono
        intro changed s₁ log₁ rests unchanged
        obtain ⟨same, all⟩ := rests unchanged
        exact ⟨same, fun _ ns name binding => all ns (Namespace.mem_all ns) name binding⟩
    simp only [applyGlobs, Run.bind_iff, Run.pure_iff]
    apply applied.mono
    intro first s₁ log₁ firstRests
    apply ih.mono
    intro later s₂ log₂ laterRests unchanged
    obtain ⟨noFirst, noLater⟩ := Bool.or_eq_false_iff.mp unchanged
    obtain ⟨rfl, closed⟩ := firstRests noFirst
    obtain ⟨rfl, others⟩ := laterRests noLater
    exact ⟨rfl, List.forall_mem_cons.mpr ⟨closed, others⟩⟩

/-- The globs come to rest in such a round. -/
theorem closed_of_settle {globs : List (Fin n × ModuleId)} {rounds : Nat}
    (run : settle imports globs rounds s log = .ok (true, s') log') :
    ∀ glob ∈ globs, glob.2 ≠ (imports.get glob.1).module →
      Closed s' (imports.get glob.1).module glob.2 := by
  induction rounds generalizing s log with
  | zero => cases run
  | succ rounds ih =>
    rw [settle] at run
    obtain ⟨⟨changed, s₁⟩, log₁, applied, rest⟩ := Logged.bind_eq_ok.mp run
    cases changed with
    | true => exact ih rest
    | false =>
      cases rest
      obtain ⟨rfl, closed⟩ :=
        (run_applyGlobs_rests globs).of_ok applied rfl
      exact closed

/-- When the import phase is through, each module has taken over all names of those that its globs
    read from. -/
theorem Ready.closed (ready : Ready imports s) (course : Course labels imports start [] s)
    (run : allDirectives imports s log = .ok ((), s') log')
    (isGlob : (imports.get i).isGlob = true) (done : s'.statusOf i = .done (some source))
    (other : source ≠ (imports.get i).module) : Closed s' (imports.get i).module source := by
  obtain ⟨⟨_, s₁⟩, log₁, run₁, rest₁⟩ := Logged.bind_eq_ok.mp run
  obtain ⟨⟨globs, s₂⟩, log₂, run₂, rest₂⟩ := Logged.bind_eq_ok.mp rest₁
  obtain ⟨⟨_, s₃⟩, log₃, run₃, last⟩ := Logged.bind_eq_ok.mp rest₂
  cases last
  obtain ⟨goes, finished⟩ := (run_resolveSingles_goes (List.finRange n) course).of_ok run₁
  have spreading : Spreading labels imports start [] s₁ :=
    ⟨goes.course, fun i => finished i (List.mem_finRange i), List.forall_mem_nil _⟩
  obtain ⟨-, spreading', complete⟩ :=
    (run_globSources_goes (List.finRange n) spreading).of_ok run₂
  have progress := (ready.run_resolveSingles (List.finRange n)).of_ok run₁
  obtain ⟨found, known⟩ := (progress.ready.run_globSources (List.finRange n)).of_ok run₂
  -- the loop does what it would do if it told whether the globs have come to rest, and they do
  obtain ⟨_, s₄, log₄, run₄, rfl⟩ := Run.false_iff.mp
    (found.ready.run_settle globs _ known (ModuleTree.named_boundNames s₂.tree)
      (ModuleTree.length_freePlaces_lt s₂.tree))
  have same := (saturate_of_settle run₄).symm.trans run₃
  cases same
  have goes' := (run_saturate_goes _ spreading').of_ok run₃
  obtain ⟨asked, mem⟩ := complete i (List.mem_finRange i) isGlob
  have done₂ : s₂.statusOf i = .done (some source) := by
    rw [← goes'.steps.statusOf_of_finished asked]
    exact done
  exact closed_of_settle run₄ (i, source) (mem source done₂) other

/-! ## What a glob has bound -/

/-- A name stands for the same as another one. Unless all may be seen, that one is `pub`; of a set
    this is said of each function that has been taken over. -/
inductive Imitates (defs : Definitions) (all : Prop) : Binding → Binding → Prop where
  | single {own binding : Binding} {final : DefId} (names : definitionOf defs own = .ok final)
      (same : definitionOf defs binding = .ok final) (pub : all ∨ isPub defs binding = .ok true) :
      Imitates defs all own binding
  | overloads {f g : OverloadId}
      (members : ∀ suffix member, defs.member? f suffix = some member →
        ∃ original final, defs.member? g suffix = some original ∧
          defs.resolveAlias member = .ok final ∧ defs.resolveAlias original = .ok final ∧
          (all ∨ defs.isPub original = .ok true)) :
      Imitates defs all (.overloads f) (.overloads g)

/-- A name that a glob binds it has made of what its source has, as far as it may see that. -/
theorem Move.made_of_isGlob (move : Move imports i s s') (isGlob : (imports.get i).isGlob = true)
    (inOrder : InOrder labels imports s) (free : s.tree.bindingAt? module ns name = none)
    (bound : s'.tree.bindingAt? module ns name = some own) :
    module = (imports.get i).module ∧ ∃ source binding inside pub,
      s.statusOf i = .done (some source) ∧ s.tree.bindingAt? source ns name = some binding ∧
      s.tree.isWithin module source = .ok inside ∧ isPub s.defs binding = .ok pub ∧
      (inside = true ∨ pub = true) ∧
      MadeOf (imports.get i).node (!inside && pub) s.defs s'.defs binding own := by
  have unbound {P : Prop} (before : s.tree.bindingAt? module ns name = some own) : P := by
    rw [free] at before
    cases before
  cases move with
  | opens _ => exact unbound bound
  | fails _ _ => exact unbound bound
  | reads _ _ => exact unbound bound
  | binds _ hasTarget _ _ =>
    rw [Import.isGlob_of_target? hasTarget] at isGlob
    cases isGlob
  | @spreads source _ _ binding _ _ done there _ _ visible brings =>
    rcases brings.made (inOrder.sound.sorted.bindings there) bound with
      before | ⟨same, -, inside, pub, within, isPub, made⟩
    · exact unbound before
    · cases same
      refine ⟨rfl, source, binding, inside, pub, done, there, within, isPub, ?_, made⟩
      rw [within, isPub] at visible
      exact visible.imp Except.ok.inj Except.ok.inj

/-- In later tables that have added nothing to it, it stands for the same. -/
theorem MadeOf.imitates {e : ImportState n} {node : NodeId} {inside pub : Bool}
    (made : MadeOf node (!inside && pub) s.defs s'.defs binding own) (later : Later labels s' e)
    (keeps : s.defs.Keeps e.defs) (within : inside = true → e.tree.isWithin home source = .ok true)
    (isPub : Importing.isPub s.defs binding = .ok pub) (visible : inside = true ∨ pub = true)
    (sorted : binding.Sorted e.defs ns)
    (same : ∀ f, own = .overloads f →
      ∀ suffix, e.defs.member? f suffix = s'.defs.member? f suffix) :
    Imitates e.defs (e.tree.isWithin home source = .ok true) own binding := by
  have valid := later.sound.intact.validDefs
  cases made with
  | alias' names made _ =>
    obtain ⟨final, -, stands, same⟩ := exists_definitionOf_alias valid later.sound.sorted.defs
      sorted names (later.defs_keeps.aliasAt made)
    refine .single same stands (visible.imp within fun somePub => ?_)
    subst somePub
    rcases names with rfl | rfl
    · exact keeps.isPub isPub
    · exact keeps.isPub isPub
  | @copies g f copies empty =>
    refine .overloads fun suffix member mem => ?_
    rw [same f rfl] at mem
    rcases copies.taken suffix member mem with before | ⟨-, original, made, from_, only⟩
    · rw [empty] at before
      cases before
    · have from_ := keeps.member? from_
      have known := valid.known_of_member? from_
      obtain ⟨final, resolved, -⟩ := valid.resolveAlias known
      have names := (valid.resolveAlias_iff known).mp resolved
      refine ⟨original, final, from_, names_of_aliasAt valid (later.defs_keeps.aliasAt made) names,
        resolved, ?_⟩
      cases inside with
      | true => exact .inl (within rfl)
      | false =>
        have somePub : pub = true := visible.resolve_left Bool.false_ne_true
        subst somePub
        exact .inr (keeps.isPub (only rfl))

/-- A name is bound to something that stands for the same as what another module has. -/
def Spread (s : ImportState n) (module source : ModuleId) (ns : Namespace) (name : String)
    (own : Binding) : Prop :=
  s.tree.bindingAt? module ns name = some own ∧
    ∃ binding, s.tree.bindingAt? source ns name = some binding ∧
      Imitates s.defs (s.tree.isWithin module source = .ok true) own binding

end Importing

open Importing

theorem Trail.spread {trail : List (Occasion n)} {o : Occasion n}
    (h : Trail imports start trail s) (inOrder : InOrder labels imports start) (mem : o ∈ trail)
    (isGlob : (imports.get o.index).isGlob = true) (binds : o.Binds module ns name own) :
    module = (imports.get o.index).module ∧
      ∃ source, s.statusOf o.index = .done (some source) ∧ Spread s module source ns name own := by
  obtain ⟨free, bound⟩ := binds
  have inOrder₀ := h.inOrder_before inOrder mem
  have inOrder₁ := h.inOrder_after inOrder mem
  have move := h.move mem
  have later₁ := inOrder₀.move move
  have later₂ := inOrder₁.path (h.after mem)
  have later := later₁.trans later₂
  obtain ⟨home, source, binding, inside, pub, done, there, within, isPub, visible, made⟩ :=
    move.made_of_isGlob isGlob inOrder₀ free bound
  have there' := later.tree_keeps.bound there
  have finished : o.before.Finished o.index := by
    unfold ImportState.Finished
    rw [done]
    exact ⟨by simp, by simp⟩
  have path : Steps imports [] o.before s :=
    (Steps.single (.moves List.not_mem_nil move)).trans (h.after mem)
  refine ⟨home, source, ?_, later₂.tree_keeps.bound bound, binding, there', ?_⟩
  · rw [path.statusOf_of_finished finished, done]
  · refine made.imitates later₂ later.defs_keeps (fun isWithin => ?_) isPub visible
      (later.sound.sorted.bindings there') fun f isSet suffix => ?_
    · rw [later.tree.isWithin within, isWithin]
    · -- nobody has still to bind the name, so nothing is added to the set
      subst isSet
      obtain ⟨rfl, -⟩ := inOrder₁.sound.sorted.bindings bound
      exact (h.after mem).member?_eq inOrder₁ bound (move.settled isGlob free bound) suffix

/-- Over what the first pass makes of any program, and with its imports in any order: in the end
    the module of a glob has taken over every name that it may see of the module the glob reads
    from, if that is another one, and whatever the glob has bound stands for the same there. -/
theorem globs_closed_and_sound {program : Program} {built : DeclareState} {log log' : Log}
    (declared : declareProgram .empty .new program log = .ok built log')
    {directives : List Directive} (reordered : directives.Perm built.directives) {lint : Bool}
    {s : ImportState directives.length} {log₀ log₁ : Log}
    (run : resolveImports built.defs built.tree lint directives log₀ = .ok s log₁)
    {i : Fin directives.length} {source : ModuleId} (isGlob : (directives.get i).isGlob = true)
    (done : s.statusOf i = .done (some source)) :
    (source ≠ (directives.get i).module → Closed s (directives.get i).module source) ∧
      (∃ trail, Trail (Imports.ofList directives lint) (.start _ built.defs built.tree) trail s) ∧
      ∀ trail, Trail (Imports.ofList directives lint) (.start _ built.defs built.tree) trail s →
        ∀ o ∈ trail, o.index = i → ∀ module ns name own, o.Binds module ns name own →
          module = (directives.get i).module ∧ Spread s module source ns name own := by
  obtain ⟨inOrder, goes⟩ := resolveImports_goes declared reordered run
  have course := course_start inOrder.sound inOrder.homes
  refine ⟨fun other => ?_, goes.steps.exists_trail, ?_⟩
  · have ready := ready_start inOrder.sound.intact inOrder.homes
    exact ready.closed course (allDirectives_of_resolveImports run) isGlob done other
  · rintro trail h o mem rfl module ns name own binds
    obtain ⟨home, source', done', spread⟩ := h.spread inOrder mem isGlob binds
    rw [done] at done'
    cases done'
    exact ⟨home, spread⟩

theorem globs_closed_and_sound_both_ways :
    ∃ built log', declareProgram .empty .new bothWays .empty = .ok built log' ∧
      ∃ s log₁, resolveImports built.defs built.tree true built.directives .empty = .ok s log₁ ∧
        ∃ i : Fin built.directives.length, (built.directives.get i).isGlob = true ∧
          s.statusOf i = .done (some ⟨1⟩) ∧
          ((⟨1⟩ : ModuleId) ≠ (built.directives.get i).module →
            Closed s (built.directives.get i).module ⟨1⟩) ∧
          (∃ trail, Trail (Imports.ofList built.directives true)
            (.start _ built.defs built.tree) trail s) ∧
          ∀ trail, Trail (Imports.ofList built.directives true)
              (.start _ built.defs built.tree) trail s →
            ∀ o ∈ trail, o.index = i → ∀ module ns name own, o.Binds module ns name own →
              module = (built.directives.get i).module ∧ Spread s module ⟨1⟩ ns name own := by
  obtain ⟨built, log', declared, s, log₁, run, rest⟩ := exists_resolved_of_check bothWays
    (fun built s => decide (∃ i ∈ List.finRange _, (built.directives.get i).isGlob = true ∧
      s.statusOf i = .done (some ⟨1⟩))) (by decide +kernel)
  obtain ⟨i, -, isGlob, done⟩ := of_decide_eq_true rest
  exact ⟨built, log', declared, s, log₁, run, i, isGlob, done,
    globs_closed_and_sound declared (List.Perm.refl _) run isGlob done⟩

end NameResolution
