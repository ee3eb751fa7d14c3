import NameResolution.Proofs.Run

/-! # Journals

    A journal is only ever added to, and nobody looks into it. So whatever a
    computation comes to it comes to under every journal and without one, and
    what it notes on its way tells what it does. -/

namespace NameResolution

/-! ## What is noted -/

/-- The second log has no more in its journal than the first one but moments of this kind. -/
def Log.Notes (kind : Moment → Prop) (log log' : Log) : Prop :=
  ∃ noted, log'.journal = log.journal.map (· ++ noted) ∧ ∀ moment ∈ noted, kind moment

namespace Log.Notes

variable {kind kind' : Moment → Prop} {log log' log'' : Log}

theorem refl (log : Log) : log.Notes kind log := ⟨[], by simp, List.forall_mem_nil _⟩

theorem trans (h : log.Notes kind log') (h' : log'.Notes kind log'') : log.Notes kind log'' := by
  obtain ⟨noted, eq, all⟩ := h
  obtain ⟨noted', eq', all'⟩ := h'
  refine ⟨noted ++ noted', ?_, List.forall_mem_append.mpr ⟨all, all'⟩⟩
  rw [eq', eq, Option.map_map]
  congr 1
  funext before
  exact List.append_assoc ..

theorem mono (h : log.Notes kind log') (imp : ∀ moment, kind moment → kind' moment) :
    log.Notes kind' log' := by
  obtain ⟨noted, eq, all⟩ := h
  exact ⟨noted, eq, fun moment mem => imp moment (all moment mem)⟩

theorem push (event : Event) : log.Notes kind (log.push event) := .refl log

theorem note {moment : Moment} (h : kind moment) : log.Notes kind (log.note moment) :=
  ⟨[moment], rfl, List.forall_mem_singleton.mpr h⟩

end Log.Notes

/-! ## Under every journal -/

/-- A computation that has ended, with its log. -/
def Logged.ended {α : Type} : Except Fault α → Log → EStateM.Result Fault Log α
  | .ok a, log => .ok a log
  | .error fault, log => .error fault log

/-- Whether a computation goes through, with a result and moments on the way that pass a check. -/
def Logged.passesNoting {α : Type} (action : Logged α) (check : α → List Moment → Bool) : Bool :=
  match action ⟨#[], some []⟩ with
  | .ok a log => check a (log.journal.getD [])
  | .error _ _ => false

/-- Whatever is in the journal, and if none is kept, the computation comes to the same, leaves the
    same records and notes the same moments. -/
def Logged.Recounts {α : Type} (action : Logged α) (events : Array Event)
    (outcome : Except Fault α) (events' : Array Event) (noted : List Moment) : Prop :=
  ∀ journal, action ⟨events, journal⟩ = ended outcome ⟨events', journal.map (· ++ noted)⟩

namespace Logged.Recounts

variable {α β : Type} {action : Logged α} {f : α → Logged β} {a : α} {outcome : Except Fault β}
  {fault : Fault} {events events₁ events' : Array Event} {noted noted' : List Moment}

/-- What does not write into the journal notes nothing. -/
theorem of_eq {outcome : Except Fault α}
    (h : ∀ journal, action ⟨events, journal⟩ = Logged.ended outcome ⟨events', journal⟩) :
    action.Recounts events outcome events' [] := by
  intro journal
  simpa using h journal

theorem lift (outcome : Except Fault α) (events : Array Event) :
    (Logged.lift outcome).Recounts events outcome events [] :=
  of_eq fun _ => by cases outcome <;> rfl

theorem pure (a : α) (events : Array Event) :
    (Pure.pure a : Logged α).Recounts events (.ok a) events [] := of_eq fun _ => rfl

theorem emit (event : Event) (events : Array Event) :
    (Logged.emit event).Recounts events (.ok ()) (events.push event) [] := of_eq fun _ => rfl

theorem bind_ok (h : action.Recounts events (.ok a) events₁ noted)
    (h' : (f a).Recounts events₁ outcome events' noted') :
    (action >>= f).Recounts events outcome events' (noted ++ noted') := by
  intro journal
  rw [bind_of_ok (h journal), h' _, Option.map_map]
  congr 2
  congr 1
  funext before
  exact List.append_assoc ..

theorem bind_error (h : action.Recounts events (.error fault) events' noted) :
    (action >>= f).Recounts events (.error fault) events' noted :=
  fun journal => bind_of_error (h journal)

/-- What is known of one run is known of what is recounted. -/
theorem of_run {action : Logged β} {b : β} {log : Log} {journal : Option (List Moment)}
    (h : action.Recounts events outcome events' noted)
    (run : action ⟨events, journal⟩ = .ok b log) :
    outcome = .ok b ∧ log = ⟨events', journal.map (· ++ noted)⟩ := by
  rw [h journal] at run
  cases outcome with
  | ok b' =>
    cases run
    exact ⟨rfl, rfl⟩
  | error fault => cases run

theorem of_check {action : Logged β} (h : action.Recounts #[] outcome events' noted)
    (check : β → List Moment → Bool) (passes : action.passesNoting check = true) :
    ∃ b, outcome = .ok b ∧ check b noted = true := by
  rw [passesNoting, h (some [])] at passes
  cases outcome with
  | ok b => exact ⟨b, rfl, passes⟩
  | error fault => cases passes

/-- What holds of all that is noted in a run holds of what is recounted. -/
theorem forall_noted {kind : Moment → Prop} (h : action.Recounts events (.ok a) events' noted)
    (notes : ∀ log log', action log = .ok a log' → log.Notes kind log') :
    ∀ moment ∈ noted, kind moment := by
  obtain ⟨noted', eq, all⟩ := notes _ _ (h (some []))
  have same : noted = noted' := by simpa using eq
  rw [same]
  exact all

end Logged.Recounts

end NameResolution
