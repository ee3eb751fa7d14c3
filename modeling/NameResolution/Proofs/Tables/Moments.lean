import NameResolution.Proofs.Journal
import NameResolution.Proofs.Tables.WriteOnce

/-! # Moments of a run

    Each operation on the tables is noted when it has been done. So the moments
    of a run lead from the tables it has started with to those it has ended with
    by one operation at a time, and where it ends with a fault they lead up to
    that. -/

namespace NameResolution

/-! ## From moment to moment -/

/-- Moments that lead from tables to tables: from each to the next at most one operation is done. -/
inductive Leads : Definitions × ModuleTree → List Moment → Definitions × ModuleTree → Prop where
  | stays (tables : Definitions × ModuleTree) : Leads tables [] tables
  | goesOn {tables tables' : Definitions × ModuleTree} {moment : Moment} {noted : List Moment}
      (first : Relation.ReflGen TableOperation tables moment.tables)
      (others : Leads moment.tables noted tables') : Leads tables (moment :: noted) tables'

namespace Leads

variable {tables tables' tables'' : Definitions × ModuleTree} {noted noted' : List Moment}

theorem single {moment : Moment} (h : Relation.ReflGen TableOperation tables moment.tables) :
    Leads tables [moment] moment.tables := .goesOn h (.stays _)

theorem trans (h : Leads tables noted tables') (h' : Leads tables' noted' tables'') :
    Leads tables (noted ++ noted') tables'' := by
  induction h with
  | stays => exact h'
  | goesOn first _ ih => exact .goesOn first (ih h')

theorem isChain (h : Leads tables noted tables') :
    (tables :: noted.map Moment.tables).IsChain TableWrites := by
  induction h with
  | stays tables => exact .singleton tables
  | goesOn first _ ih =>
    refine .cons_cons ?_ ih
    cases first with
    | refl => exact .refl _
    | single operation => exact operation.writes

theorem getLast? (h : Leads tables noted tables') :
    (tables :: noted.map Moment.tables).getLast? = some tables' := by
  induction h with
  | stays tables => rfl
  | goesOn _ _ ih => rw [List.map_cons, List.getLast?_cons_cons, ih]

/-- The moments are among those of a history in which entries are written one at a time. -/
theorem exists_history (h : Leads tables noted tables') :
    ∃ history, History history ∧ (tables :: noted.map Moment.tables).Sublist history ∧
      history.head? = some tables ∧ history.getLast? = some tables' := by
  obtain ⟨history, isHistory, sublist, head, last⟩ := NameResolution.exists_history h.isChain
  exact ⟨history, isHistory, sublist, head, last.trans h.getLast?⟩

end Leads

/-- Whatever has been noted from one log to the other, the tables have been in order. -/
abbrev Log.NotesSound (labels : NodeId → String → Prop) (log log' : Log) : Prop :=
  log.Notes (fun moment => Sound labels moment.tables) log'

/-! ## Parts of a pass -/

section

variable {σ α β : Type} {tables : σ → Definitions × ModuleTree} {m : StateT σ Logged α}
  {f : α → StateT σ Logged β} {s s' : σ}

/-- From a state on, a part of a pass notes moments that lead from the tables it has started with
    to those it has ended with. -/
def Narrates (tables : σ → Definitions × ModuleTree) (m : StateT σ Logged α) (s : σ) : Prop :=
  ∀ events, ∃ outcome events' noted tables', (m s).Recounts events outcome events' noted ∧
    Leads (tables s) noted tables' ∧ ∀ a s', outcome = .ok (a, s') → tables s' = tables'

namespace Narrates

/-- What does not write into the journal leaves the tables as they are. -/
theorem of_eq (outcome : Except Fault (α × σ))
    (h : ∀ events, ∃ events', ∀ journal,
      m s ⟨events, journal⟩ = Logged.ended outcome ⟨events', journal⟩)
    (same : ∀ a s', outcome = .ok (a, s') → tables s' = tables s) : Narrates tables m s := by
  intro events
  obtain ⟨events', run⟩ := h events
  exact ⟨outcome, events', [], tables s, .of_eq run, .stays _, same⟩

theorem pure (a : α) (s : σ) : Narrates tables (Pure.pure a) s :=
  .of_eq (.ok (a, s)) (fun events => ⟨events, fun _ => rfl⟩) (by rintro _ _ ⟨⟩; rfl)

theorem lift (result : Except Fault α) (s : σ) :
    Narrates tables (liftM (Logged.lift result) : StateT σ Logged α) s := by
  cases result with
  | ok a => exact .pure a s
  | error fault =>
    exact .of_eq (.error fault) (fun events => ⟨events, fun _ => rfl⟩) (by simp)

theorem emit (event : Event) (s : σ) :
    Narrates tables (liftM (Logged.emit event) : StateT σ Logged Unit) s :=
  .of_eq (.ok ((), s)) (fun events => ⟨events.push event, fun _ => rfl⟩) (by rintro _ _ ⟨⟩; rfl)

/-- A change of something else than the tables. -/
theorem modify {g : σ → σ} (same : tables (g s) = tables s) :
    Narrates tables (modify g : StateT σ Logged PUnit) s :=
  .of_eq (.ok ((), g s)) (fun events => ⟨events, fun _ => rfl⟩) (by rintro _ _ ⟨⟩; exact same)

/-- A moment is noted, with at most one operation before it. -/
theorem note (s' : σ) {a : α} {moment : Moment}
    (run : ∀ log, m s log = .ok (a, s') (log.note moment)) (same : moment.tables = tables s')
    (operation : Relation.ReflGen TableOperation (tables s) (tables s')) :
    Narrates tables m s := by
  intro events
  refine ⟨.ok (a, s'), events, [moment], moment.tables, fun journal => run _,
    .single (same ▸ operation), ?_⟩
  rintro _ _ ⟨⟩
  exact same.symm

/-- One part after another, where something is known of what the first one comes to. -/
theorem bind (h : Narrates tables m s) (post : α → σ → Prop)
    (run : ∀ log, Run True m s log fun a s' _ => post a s')
    (h' : ∀ a s', post a s' → Narrates tables (f a) s') : Narrates tables (m >>= f) s := by
  intro events
  obtain ⟨outcome, events₁, noted, tables₁, recounts, leads, ends⟩ := h events
  cases outcome with
  | error fault => exact ⟨_, _, _, _, recounts.bind_error, leads, by simp⟩
  | ok p =>
    obtain ⟨a, s₁⟩ := p
    obtain ⟨outcome, events₂, noted', tables₂, recounts', leads', ends'⟩ :=
      h' a s₁ ((run _).of_ok (recounts none)) events₁
    -- the second part goes on with the tables that the moments of the first have led to
    rw [ends a s₁ rfl] at leads'
    exact ⟨outcome, events₂, noted ++ noted', tables₂, recounts.bind_ok recounts',
      leads.trans leads', ends'⟩

/-- What comes behind a part starts from the state that the part ends in. -/
theorem bind_from (h : Narrates tables m s)
    (run : ∀ log, Run True m s log fun _ s₁ _ => s₁ = s')
    (h' : ∀ a, Narrates tables (f a) s') : Narrates tables (m >>= f) s :=
  h.bind (fun _ s₁ => s₁ = s') run fun a _ same => same ▸ h' a

theorem andThen (h : Narrates tables m s) (h' : ∀ a s', Narrates tables (f a) s') :
    Narrates tables (m >>= f) s :=
  h.bind (fun _ _ => True) (fun _ => Run.true_iff.mpr fun _ _ _ _ => trivial) fun a s' _ => h' a s'

/-- What is read first is the state. -/
theorem reads {f : σ → StateT σ Logged β} (h : Narrates tables (f s) s) :
    Narrates tables (get >>= f) s := h

/-- Behind a result that is there. -/
theorem lift_bind {result : Except Fault α} (h : ∀ a, result = .ok a → Narrates tables (f a) s) :
    Narrates tables ((liftM (Logged.lift result) : StateT σ Logged α) >>= f) s := by
  refine (lift result s).bind (fun a s' => result = .ok a ∧ s' = s) (fun log => ?_) ?_
  · rw [Run.lift_iff]
    exact Yields.true_iff.mpr fun a there => ⟨there, rfl⟩
  · rintro a _ ⟨there, rfl⟩
    exact h a there

theorem emit_bind {event : Event} {f : Unit → StateT σ Logged β} (h : Narrates tables (f ()) s) :
    Narrates tables ((liftM (Logged.emit event) : StateT σ Logged Unit) >>= f) s :=
  (emit event s).bind_from (fun _ => rfl) fun _ => h

theorem forM {f : α → StateT σ Logged PUnit} (xs : List α)
    (h : ∀ x ∈ xs, ∀ s, Narrates tables (f x) s) (s : σ) : Narrates tables (xs.forM f) s := by
  induction xs generalizing s with
  | nil => exact .pure _ s
  | cons x xs ih =>
    obtain ⟨first, others⟩ := List.forall_mem_cons.mp h
    exact (first s).andThen fun _ s' => ih others s'

/-- What a whole pass comes to that notes what it does. -/
theorem runs (h : Narrates tables m s) (events : Array Event) :
    ∃ outcome events' noted tables', (do
        let (_, s') ← m.run s
        return s' : Logged σ).Recounts events outcome events' noted ∧
      Leads (tables s) noted tables' ∧ ∀ s', outcome = .ok s' → tables s' = tables' := by
  obtain ⟨outcome, events', noted, tables', recounts, leads, ends⟩ := h events
  cases outcome with
  | error fault => exact ⟨_, _, _, _, recounts.bind_error, leads, by simp⟩
  | ok p =>
    have recounts' := recounts.bind_ok (f := fun p => Pure.pure p.2) (.pure p.2 events')
    rw [List.append_nil] at recounts'
    refine ⟨_, _, _, _, recounts', leads, ?_⟩
    rintro _ ⟨⟩
    exact ends p.1 p.2 rfl

end Narrates

end

end NameResolution
