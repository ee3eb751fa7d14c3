import NameResolution.Proofs.Import.Overloads

/-! # The trail of the import phase

    What directives have done one after another is written down as a list of
    occasions, each with the state before and after it. So it can be said of a
    definition on which occasion it was made, and by whom. What a name stands
    for is told by that: an import only binds what it has made on the same
    occasion, and whatever is bound already keeps what it stands for, but for
    functions that join it. -/

namespace NameResolution

variable {n : Nat} {labels : NodeId → String → Prop} {imports : Imports n}
  {start s s' s'' : ImportState n} {i : Fin n} {opened : List (Fin n)} {directive : Directive}
  {name : Ident} {ns : Namespace} {source module : ModuleId} {binding bound' : Binding}
  {text : String} {id : DefId}

/-- What a name stands for: a definition, or any function of a set. -/
def Binding.Refers (defs : Definitions) (id : DefId) : Binding → Prop
  | .definition target | .imported target => target = id
  | .overloads set => ∃ suffix, defs.member? set suffix = some id

theorem Binding.Refers.keeps {defs defs' : Definitions} (h : binding.Refers defs id)
    (keeps : defs.Keeps defs') : binding.Refers defs' id := by
  cases binding with
  | definition target => exact h
  | imported target => exact h
  | overloads set =>
    obtain ⟨suffix, mem⟩ := h
    exact ⟨suffix, keeps.member? mem⟩

theorem Binding.Refers.known {defs : Definitions} (h : binding.Refers defs id)
    (valid : defs.Valid) (good : binding.Good defs ns) : defs.Known id := by
  cases binding with
  | definition target => exact h ▸ good
  | imported target => exact h ▸ good
  | overloads set =>
    obtain ⟨suffix, mem⟩ := h
    exact valid.known_of_member? mem

namespace Importing

/-! ## What names stand for -/

/-- What is known already a name stood for before, if it does later. -/
theorem Later.refers (later : Later labels s s') (known : s.defs.Known id)
    (h : binding.Refers s'.defs id) : binding.Refers s.defs id := by
  cases binding with
  | definition target => exact h
  | imported target => exact h
  | overloads set =>
    obtain ⟨suffix, mem⟩ := h
    exact ⟨suffix, later.members known mem⟩

/-- What has only just been made of something stands for nothing that was there. -/
theorem MadeOf.new {node : NodeId} {publicOnly : Bool} {defs defs' : Definitions}
    (h : MadeOf node publicOnly defs defs' binding bound') (refers : bound'.Refers defs' id) :
    ¬ defs.Known id := by
  cases h with
  | alias' _ _ new =>
    cases refers
    exact new
  | copies copies empty =>
    obtain ⟨suffix, mem⟩ := refers
    rcases copies.taken suffix id mem with before | ⟨new, -⟩
    · rw [empty] at before
      cases before
    · exact new

theorem BringsAll.new {found : List (Namespace × ModuleId × Binding)}
    (brings : BringsAll directive name found s s') (prepared : Prepared labels directive found s)
    (free : s.tree.bindingAt? module ns text = none)
    (bound : s'.tree.bindingAt? module ns text = some bound') (refers : bound'.Refers s'.defs id) :
    ¬ s.defs.Known id := by
  induction brings with
  | nil =>
    rw [free] at bound
    cases bound
  | @cons _ _ _ _ s s₁ _ first others ih =>
    intro known
    obtain ⟨later, rest⟩ := prepared.first first
    have known₁ : s₁.defs.Known id := later.defs.known known
    cases mid : s₁.tree.bindingAt? module ns text with
    | none => exact ih rest mid bound refers known₁
    | some b =>
      have later₁ := others.later rest
      rw [later₁.tree_keeps.bound mid] at bound
      cases bound
      have sorted := prepared.sorted _ (List.mem_cons_self ..)
      rcases first.made sorted mid with before | ⟨-, -, _, _, -, -, made⟩
      · rw [free] at before
        cases before
      · exact made.new (later₁.refers known₁ refers) known

/-- A name that stands for something that was there before stood for it already. -/
theorem Move.refers_of_known (move : Move imports i s s') (inOrder : InOrder labels imports s)
    (known : s.defs.Known id) (bound : s'.tree.bindingAt? module ns text = some binding)
    (refers : binding.Refers s'.defs id) :
    s.tree.bindingAt? module ns text = some binding ∧ binding.Refers s.defs id := by
  have later := inOrder.move move
  refine ⟨?_, later.refers known refers⟩
  cases before : s.tree.bindingAt? module ns text with
  | some b =>
    rw [later.tree_keeps.bound before] at bound
    exact bound
  | none =>
    cases move with
    | opens _ => exact before.symm.trans bound
    | fails _ _ => exact before.symm.trans bound
    | reads _ _ => exact before.symm.trans bound
    | binds _ _ finds brings =>
      have new := brings.new (inOrder.prepared finds) before bound refers
      exact absurd known new
    | spreads _ _ there _ _ _ brings =>
      have sorted := inOrder.sound.sorted.bindings there
      rcases brings.made sorted bound with earlier | ⟨-, -, _, _, -, -, made⟩
      · exact before.symm.trans earlier
      · exact absurd known (made.new refers)

theorem Steps.refers_of_known (path : Steps imports opened s s')
    (inOrder : InOrder labels imports s) (known : s.defs.Known id)
    (bound : s'.tree.bindingAt? module ns text = some binding)
    (refers : binding.Refers s'.defs id) :
    s.tree.bindingAt? module ns text = some binding ∧ binding.Refers s.defs id := by
  induction path with
  | refl => exact ⟨bound, refers⟩
  | @tail s₁ s₂ before last ih =>
    have before : Steps imports opened s s₁ := before
    have later := inOrder.path before
    cases last with
    | moves _ move =>
      obtain ⟨bound₁, refers₁⟩ :=
        move.refers_of_known (later.inOrder inOrder) (later.defs.known known) bound refers
      exact ih bound₁ refers₁
    | reports _ => exact ih bound refers

/-- A glob adds nothing to what a name stands for that is bound already. -/
theorem Move.refers_of_bound (move : Move imports i s s') (isGlob : (imports.get i).isGlob = true)
    (inOrder : InOrder labels imports s)
    (bound : s.tree.bindingAt? module ns text = some binding)
    (refers : binding.Refers s'.defs id) : binding.Refers s.defs id := by
  cases binding with
  | definition target => exact refers
  | imported target => exact refers
  | overloads set =>
    obtain ⟨suffix, mem⟩ := refers
    rw [move.member?_eq_of_isGlob isGlob inOrder bound] at mem
    exact ⟨suffix, mem⟩

/-- A glob binds a name when nobody has still to bind it. -/
theorem Move.settled (move : Move imports i s s') (isGlob : (imports.get i).isGlob = true)
    (free : s.tree.bindingAt? module ns text = none)
    (bound : s'.tree.bindingAt? module ns text = some binding) :
    AllSettled imports s' module text := by
  -- no single import is this glob
  have notSingle {slot : ModuleId × String} : (imports.get i).slot? ≠ some slot := by
    intro isSlot
    rw [Lookup.single_of_slot? isSlot] at isGlob
    cases isGlob
  rcases move.bound_or bound with before | ⟨-, slot⟩ | ⟨-, -, settled⟩
  · rw [free] at before
    cases before
  · exact absurd slot notSingle
  · intro j slot
    have step : Steps imports [] s s' := .single (.moves List.not_mem_nil move)
    refine step.finished (settled j slot ?_)
    rintro rfl
    exact notSingle slot

/-! ## Names that are bound -/

/-- A block takes no lifetimes. -/
def Refuses (tree : ModuleTree) (module : ModuleId) (ns : Namespace) : Prop :=
  ns = .lifetime ∧ ∃ m, tree.find? module = some m ∧ m.owner.isBlock = true

theorem Refuses.grows {tree tree' : ModuleTree} (h : Refuses tree module ns)
    (grows : tree.Grows tree') : Refuses tree' module ns := by
  obtain ⟨lifetime, m, found, block⟩ := h
  obtain ⟨names, found'⟩ := grows.module found
  exact ⟨lifetime, _, found', block⟩

theorem Refuses.of_grows {tree tree' : ModuleTree} (h : Refuses tree' module ns)
    (grows : tree.Grows tree') : Refuses tree module ns := by
  obtain ⟨lifetime, m', found', block⟩ := h
  obtain ⟨m, names, found, rfl⟩ := grows.module_of found'
  exact ⟨lifetime, m, found, block⟩

/-- Whoever brings something in leaves the name bound. -/
theorem Outcome.bound {publicOnly : Bool}
    (outcome : Outcome directive ns name publicOnly s binding s')
    (sorted : binding.Sorted s.defs ns) (home : s.tree.Known directive.module) :
    Refuses s'.tree directive.module ns ∨
      ∃ b, s'.tree.bindingAt? directive.module ns name.name = some b := by
  cases outcome with
  | refused found lifetime block => exact .inl ⟨lifetime, _, found, block⟩
  | aliased _ _ _ _ _ => exact .inr ⟨_, ModuleTree.bindingAt?_bind_self home⟩
  | aliasTaken _ _ taken _ => exact .inr ⟨_, taken⟩
  | joined bound _ _ =>
    obtain ⟨rfl, -⟩ := sorted
    exact .inr ⟨_, bound⟩
  | blocked taken _ _ =>
    obtain ⟨rfl, -⟩ := sorted
    exact .inr ⟨_, taken⟩
  | opened _ _ =>
    obtain ⟨rfl, -⟩ := sorted
    exact .inr ⟨_, ModuleTree.bindingAt?_bind_self home⟩

theorem BringsAll.bound {found : List (Namespace × ModuleId × Binding)}
    (brings : BringsAll directive name found s s') (prepared : Prepared labels directive found s)
    {p : Namespace × ModuleId × Binding} (mem : p ∈ found) :
    Refuses s'.tree directive.module p.1 ∨
      ∃ b, s'.tree.bindingAt? directive.module p.1 name.name = some b := by
  induction brings with
  | nil => cases mem
  | @cons ns _ _ _ s s₁ s' first others ih =>
    obtain ⟨-, rest⟩ := prepared.first first
    have later₁ := others.later rest
    rcases List.mem_cons.mp mem with rfl | mem
    · obtain ⟨_, _, _, outcome⟩ := first
      have sorted := prepared.sorted _ (List.mem_cons_self ..)
      rcases outcome.bound sorted prepared.home with refused | ⟨b, bound⟩
      · exact .inl (refused.grows later₁.tree)
      · exact .inr ⟨b, later₁.tree_keeps.bound bound⟩
    · exact ih rest mem

end Importing

/-! ## Occasions -/

open Importing

/-- A move of a directive, with the state before and after it. -/
structure Occasion (n : Nat) where
  index : Fin n
  before : ImportState n
  after : ImportState n

namespace Occasion

/-- A definition is made on this occasion. -/
def Makes (o : Occasion n) (id : DefId) : Prop :=
  ¬ o.before.defs.Known id ∧ o.after.defs.Known id

/-- A name that was free is bound on this occasion. -/
def Binds (o : Occasion n) (module : ModuleId) (ns : Namespace) (text : String)
    (binding : Binding) : Prop :=
  o.before.tree.bindingAt? module ns text = none ∧
    o.after.tree.bindingAt? module ns text = some binding

/-- Something is reported on this occasion. -/
def Reports (o : Occasion n) (d : Diagnostic) : Prop :=
  ∃ more, o.after.diagnostics = o.before.diagnostics ++ more ∧ d ∈ more

/-- A single import comes to its end with what it has found. -/
structure Resolves (imports : Imports n) (o : Occasion n) (target : ImportTarget)
    (module : ModuleId) (found : List (Namespace × ModuleId × Binding)) : Prop where
  inProgress : o.before.statusOf o.index = .inProgress
  hasTarget : (imports.get o.index).target? = some target
  finds : SingleFound imports o.index o.before target module found
  brings : ∃ s', BringsAll (imports.get o.index) target.name found o.before s' ∧
    o.after = s'.withStatus o.index (.done none)

theorem Resolves.single {o : Occasion n} {target : ImportTarget}
    {found : List (Namespace × ModuleId × Binding)}
    (h : o.Resolves imports target module found) : (imports.get o.index).isGlob = false :=
  Import.isGlob_of_target? h.hasTarget

theorem Resolves.slot {o : Occasion n} {target : ImportTarget}
    {found : List (Namespace × ModuleId × Binding)} (h : o.Resolves imports target module found) :
    (imports.get o.index).slot? = some ((imports.get o.index).module, target.name.name) := by
  rw [Directive.slot?, h.hasTarget, Option.map_some]

end Occasion

/-- What directives have done from the start on, the first move first. -/
inductive Trail (imports : Imports n) (start : ImportState n) :
    List (Occasion n) → ImportState n → Prop where
  | start : Trail imports start [] start
  | moves {trail : List (Occasion n)} {i : Fin n} {s s' : ImportState n}
      (soFar : Trail imports start trail s) (move : Move imports i s s') :
      Trail imports start (trail ++ [⟨i, s, s'⟩]) s'
  /-- More diagnostics, none of them about a name that is taken -/
  | reports {trail : List (Occasion n)} {s : ImportState n} {more : List Diagnostic}
      (soFar : Trail imports start trail s) (others : ∀ d ∈ more, d.isRedefinition = false) :
      Trail imports start trail { s with diagnostics := s.diagnostics ++ more }

variable {trail : List (Occasion n)} {o o' : Occasion n}

/-- A trail goes on with whatever happens next. -/
theorem Trail.extend (h : Trail imports start trail s) (path : Steps imports opened s s') :
    ∃ later, Trail imports start (trail ++ later) s' := by
  induction path with
  | refl => exact ⟨[], by rwa [List.append_nil]⟩
  | tail _ last ih =>
    obtain ⟨later, soFar⟩ := ih
    cases last with
    | moves _ move => exact ⟨_, by rw [← List.append_assoc]; exact soFar.moves move⟩
    | reports others => exact ⟨later, soFar.reports others⟩

/-- Whatever happens leaves a trail. -/
theorem Importing.Steps.exists_trail (path : Steps imports opened s s') :
    ∃ trail, Trail imports s trail s' := by
  obtain ⟨trail, h⟩ := Trail.start.extend path
  exact ⟨trail, h⟩

namespace Trail

theorem steps (h : Trail imports start trail s) : Steps imports [] start s := by
  induction h with
  | start => exact .refl _
  | moves _ move ih => exact ih.trans (.single (.moves List.not_mem_nil move))
  | reports _ others ih => exact ih.trans (.single (.reports others))

/-- Each occasion is a move, with what happened before it and what has happened since. -/
theorem split (h : Trail imports start trail s) (mem : o ∈ trail) :
    ∃ earlier later, trail = earlier ++ o :: later ∧ Trail imports start earlier o.before ∧
      Move imports o.index o.before o.after ∧ Trail imports o.after later s := by
  induction h with
  | start => cases mem
  | @moves _ i s s' soFar move ih =>
    rcases List.mem_append.mp mem with mem | mem
    · obtain ⟨earlier, later, eq, first, own, rest⟩ := ih mem
      refine ⟨earlier, later ++ [⟨i, s, s'⟩], ?_, first, own, rest.moves move⟩
      rw [eq, List.append_assoc, List.cons_append]
    · rw [List.mem_singleton.mp mem]
      exact ⟨_, [], rfl, soFar, move, .start⟩
  | reports _ others ih =>
    obtain ⟨earlier, later, eq, first, own, rest⟩ := ih mem
    exact ⟨earlier, later, eq, first, own, rest.reports others⟩

theorem move (h : Trail imports start trail s) (mem : o ∈ trail) :
    Move imports o.index o.before o.after := by
  obtain ⟨_, _, -, -, own, -⟩ := h.split mem
  exact own

theorem before (h : Trail imports start trail s) (mem : o ∈ trail) :
    Steps imports [] start o.before := by
  obtain ⟨_, _, -, first, -, -⟩ := h.split mem
  exact first.steps

theorem after (h : Trail imports start trail s) (mem : o ∈ trail) :
    Steps imports [] o.after s := by
  obtain ⟨_, _, -, -, -, rest⟩ := h.split mem
  exact rest.steps

/-- Of two occasions one comes before the other. -/
theorem order (h : Trail imports start trail s) (mem : o ∈ trail) (mem' : o' ∈ trail) :
    o' = o ∨ Steps imports [] o'.after o.before ∨ Steps imports [] o.after o'.before := by
  obtain ⟨earlier, later, eq, first, -, rest⟩ := h.split mem
  rw [eq] at mem'
  rcases List.mem_append.mp mem' with mem' | mem'
  · exact .inr (.inl (first.after mem'))
  · rcases List.mem_cons.mp mem' with same | mem'
    · exact .inl same
    · exact .inr (.inr (rest.before mem'))

theorem inOrder_before (h : Trail imports start trail s) (inOrder : InOrder labels imports start)
    (mem : o ∈ trail) : InOrder labels imports o.before :=
  (inOrder.path (h.before mem)).inOrder inOrder

theorem inOrder_after (h : Trail imports start trail s) (inOrder : InOrder labels imports start)
    (mem : o ∈ trail) : InOrder labels imports o.after := by
  have before := h.inOrder_before inOrder mem
  exact (before.move (h.move mem)).inOrder before

/-- A single import that is done has come to its end on some occasion, and found something. -/
theorem exists_resolves (h : Trail imports start trail s)
    (pending : ∀ i, start.statusOf i = .pending) (single : (imports.get i).isGlob = false)
    {source : Option ModuleId} (done : s.statusOf i = .done source) :
    ∃ o ∈ trail, o.index = i ∧ ∃ target module found, o.Resolves imports target module found := by
  induction h with
  | start =>
    rw [pending] at done
    cases done
  | @moves soFar j s s' _ move ih =>
    have earlier (before : s.statusOf i = .done source) : ∃ o ∈ soFar ++ [⟨j, s, s'⟩],
        o.index = i ∧ ∃ target module found, o.Resolves imports target module found := by
      obtain ⟨o, mem, rest⟩ := ih before
      exact ⟨o, List.mem_append_left _ mem, rest⟩
    by_cases same : j = i
    · subst same
      cases move with
      | opens _ =>
        rw [ImportState.statusOf_withStatus_self] at done
        cases done
      | fails _ failed =>
        rw [ImportState.statusOf_withStatus_self] at done
        rcases failed with rfl | rfl <;> cases done
      | reads _ isGlob =>
        rw [single] at isGlob
        cases isGlob
      | binds inProgress hasTarget finds brings =>
        exact ⟨_, List.mem_append_right _ (List.mem_singleton_self _), rfl, _, _, _, inProgress,
          hasTarget, finds, _, brings, rfl⟩
      | spreads isGlob _ _ _ _ _ _ =>
        rw [single] at isGlob
        cases isGlob
    · rw [move.statusOf_of_ne same] at done
      exact earlier done
  | reports _ _ ih => exact ih done

/-- A definition that a single import has made it has made in coming to its end. -/
theorem exists_resolves_of_makes (h : Trail imports start trail s) (mem : o ∈ trail)
    (single : (imports.get o.index).isGlob = false) (makes : o.Makes id) :
    ∃ target module found, o.Resolves imports target module found := by
  obtain ⟨i, s₀, s₁⟩ := o
  obtain ⟨unknown, known⟩ := makes
  have move : Move imports i s₀ s₁ := h.move mem
  cases move with
  | opens _ => exact absurd known unknown
  | fails _ _ => exact absurd known unknown
  | reads _ _ => exact absurd known unknown
  | binds inProgress hasTarget finds brings =>
    exact ⟨_, _, _, inProgress, hasTarget, finds, _, brings, rfl⟩
  | spreads isGlob _ _ _ _ _ _ =>
    rw [single] at isGlob
    cases isGlob

end Trail

end NameResolution
