import NameResolution.Proofs.Run

/-! # Two runs that agree

    Two runs agree if they come to the same fault, or both come to results that
    belong together. Logs are left aside: what a pass tells about its work does
    not count as a result. -/

namespace NameResolution

variable {α β γ δ : Type}

/-- The same fault, or results that belong together. -/
inductive Agree (rel : α → β → Prop) : Except Fault α → Except Fault β → Prop where
  | ok {a : α} {b : β} (related : rel a b) : Agree rel (.ok a) (.ok b)
  | fault (fault : Fault) : Agree rel (.error fault) (.error fault)

namespace Agree

variable {rel : α → β → Prop} {result : Except Fault α} {result' : Except Fault β}

theorem bind {rel' : γ → δ → Prop} {f : α → Except Fault γ} {f' : β → Except Fault δ}
    (h : Agree rel result result') (h' : ∀ a b, rel a b → Agree rel' (f a) (f' b)) :
    Agree rel' (result >>= f) (result' >>= f') := by
  cases h with
  | ok related => exact h' _ _ related
  | fault fault => exact .fault fault

theorem mono {rel' : α → β → Prop} (h : Agree rel result result')
    (imp : ∀ a b, rel a b → rel' a b) : Agree rel' result result' := by
  cases h with
  | ok related => exact .ok (imp _ _ related)
  | fault fault => exact .fault fault

/-- A result agrees with itself. -/
theorem of_yields {onFault : Prop} {result : Except Fault α} {post : α → Prop}
    (h : Yields onFault result post) :
    Agree (fun a b => a = b ∧ post a) result result := by
  cases result with
  | ok a => exact .ok ⟨rfl, h⟩
  | error fault => exact .fault fault

theorem refl (result : Except Fault α) : Agree (· = ·) result result := by
  cases result with
  | ok a => exact .ok rfl
  | error fault => exact .fault fault

/-- Results that are always there agree if they belong together. -/
theorem of_yields_false {post : α → Prop} {post' : β → Prop} (h : Yields False result post)
    (h' : Yields False result' post') (imp : ∀ a b, post a → post' b → rel a b) :
    Agree rel result result' := by
  obtain ⟨a, rfl, holds⟩ := Yields.false_iff.mp h
  obtain ⟨b, rfl, holds'⟩ := Yields.false_iff.mp h'
  exact .ok (imp a b holds holds')

end Agree

/-- Results that belong together, if both computations come to one. -/
def Concur (rel : α → β → Prop) (result : Except Fault α) (result' : Except Fault β) : Prop :=
  ∀ a b, result = .ok a → result' = .ok b → rel a b

namespace Concur

variable {rel : α → β → Prop} {result : Except Fault α} {result' : Except Fault β}

theorem ok {a : α} {b : β} (h : rel a b) : Concur rel (.ok a) (.ok b) := by
  rintro _ _ ⟨⟩ ⟨⟩
  exact h

/-- Nothing is asked of a result that is not there. -/
theorem fault {fault : Fault} : Concur rel (.error fault) result' := by
  rintro _ _ ⟨⟩

theorem bind {rel' : γ → δ → Prop} {f : α → Except Fault γ} {f' : β → Except Fault δ}
    (h : Concur rel result result') (h' : ∀ a b, rel a b → Concur rel' (f a) (f' b)) :
    Concur rel' (result >>= f) (result' >>= f') := by
  intro c d run run'
  obtain ⟨a, first, rest⟩ := Except.bind_eq_ok.mp run
  obtain ⟨b, first', rest'⟩ := Except.bind_eq_ok.mp run'
  exact h' a b (h a b first first') c d rest rest'

theorem of_yields {onFault onFault' : Prop} {post : α → Prop} {post' : β → Prop}
    (h : Yields onFault result post) (h' : Yields onFault' result' post')
    (imp : ∀ a b, post a → post' b → rel a b) : Concur rel result result' := by
  rintro a b rfl rfl
  exact imp a b h h'

end Concur

/-- What a logged computation comes to, without its log. -/
def Logged.result (action : Logged α) (log : Log) : Except Fault α :=
  match action log with
  | .ok a _ => .ok a
  | .error fault _ => .error fault

namespace Logged

variable {rel : α → β → Prop} {action : Logged α} {action' : Logged β}

theorem result_of_ok {a : α} {log log' : Log} (h : action log = .ok a log') :
    action.result log = .ok a := by
  rw [result, h]

/-- What belongs together where both computations go through. -/
theorem of_agree {log log' log₁ log₁' : Log}
    (h : NameResolution.Agree rel (action.result log) (action'.result log')) {a : α} {b : β}
    (run : action log = .ok a log₁) (run' : action' log' = .ok b log₁') : rel a b := by
  rw [result_of_ok run, result_of_ok run'] at h
  cases h with
  | ok related => exact related

/-- Two computations that agree whatever has been logged before them. -/
def Agree (rel : α → β → Prop) (action : Logged α) (action' : Logged β) : Prop :=
  ∀ log log', NameResolution.Agree rel (action.result log) (action'.result log')

theorem Agree.pure {a : α} {b : β} (h : rel a b) : Agree rel (Pure.pure a) (Pure.pure b) :=
  fun _ _ => .ok h

/-- Where two computations have started from given logs, what follows goes on from any. -/
theorem agree_bind {rel' : γ → δ → Prop} {f : α → Logged γ} {f' : β → Logged δ}
    {log log' : Log}
    (h : NameResolution.Agree rel (action.result log) (action'.result log'))
    (h' : ∀ a b, rel a b → Agree rel' (f a) (f' b)) :
    NameResolution.Agree rel' ((action >>= f).result log) ((action' >>= f').result log') := by
  cases run : action log with
  | ok a log₁ =>
    cases run' : action' log' with
    | ok b log₁' =>
      rw [result, result, bind_of_ok run, bind_of_ok run']
      exact h' a b (of_agree h run run') log₁ log₁'
    | error fault log₁' =>
      rw [result, result, run, run'] at h
      cases h
  | error fault log₁ =>
    cases run' : action' log' with
    | ok b log₁' =>
      rw [result, result, run, run'] at h
      cases h
    | error fault' log₁' =>
      rw [result, result, run, run'] at h
      rw [result, result, bind_of_error run, bind_of_error run']
      cases h
      exact .fault fault

/-- What both do alike at first needs to be gone through only once. -/
theorem agree_after {rel' : γ → δ → Prop} {f : α → Logged γ} {f' : α → Logged δ}
    {log : Log} (h : ∀ a log', action log = .ok a log' →
      NameResolution.Agree rel' ((f a).result log') ((f' a).result log')) :
    NameResolution.Agree rel' ((action >>= f).result log) ((action >>= f').result log) := by
  cases run : action log with
  | ok a log₁ =>
    rw [result, result, bind_of_ok run, bind_of_ok run]
    exact h a log₁ run
  | error fault log₁ =>
    rw [result, result, bind_of_error run, bind_of_error run]
    exact .fault fault

theorem Agree.bind {rel' : γ → δ → Prop} {f : α → Logged γ} {f' : β → Logged δ}
    (h : Agree rel action action') (h' : ∀ a b, rel a b → Agree rel' (f a) (f' b)) :
    Agree rel' (action >>= f) (action' >>= f') :=
  fun log log' => agree_bind (h log log') h'

theorem Agree.lift {result : Except Fault α} {result' : Except Fault β}
    (h : NameResolution.Agree rel result result') :
    Agree rel (Logged.lift result) (Logged.lift result') := by
  intro log log'
  cases h with
  | ok related => exact .ok related
  | fault fault => exact .fault fault

theorem Agree.emit (event event' : Event) :
    Agree (fun _ _ => True) (Logged.emit event) (Logged.emit event') :=
  fun _ _ => .ok trivial

/-- What is only logged makes no difference, be it logged or not. -/
theorem Agree.traced {traces traces' : Prop} [Decidable traces] [Decidable traces']
    {text text' : Except Fault String} (printed : Yields False text fun _ => True)
    (printed' : Yields False text' fun _ => True) (event : String → Event)
    (h : Agree rel action action') :
    Agree rel (if traces then do Logged.emit (event (← Logged.lift text)); action else action)
      (if traces' then do Logged.emit (event (← Logged.lift text')); action' else action') := by
  have printing {δ : Type} (traces : Prop) [Decidable traces] {text : Except Fault String}
      (printed : Yields False text fun _ => True) (action : Logged δ) (log : Log) :
      ∃ log₁, Logged.result (if traces then do
        Logged.emit (event (← Logged.lift text)); action else action) log =
          action.result log₁ := by
    obtain ⟨text, rfl, -⟩ := Yields.false_iff.mp printed
    split
    · exact ⟨log.push (event text), rfl⟩
    · exact ⟨log, rfl⟩
  intro log log'
  obtain ⟨log₁, same⟩ := printing traces printed action log
  obtain ⟨log₁', same'⟩ := printing traces' printed' action' log'
  rw [same, same']
  exact h log₁ log₁'

end Logged

/-! ## Two runs over states -/

section

variable {σ ε : Type} {before between after : σ → σ → Prop} {results : α → β → Prop}
  {m : StateT σ Logged α} {m' : StateT σ Logged β}

/-- From states that are related in one way, two runs come to the same fault, or to results that
    belong together and to states that are related in the other way. -/
def Together (before after : σ → σ → Prop) (results : α → β → Prop) (m : StateT σ Logged α)
    (m' : StateT σ Logged β) : Prop :=
  ∀ s s', before s s' → Logged.Agree (fun p p' => results p.1 p'.1 ∧ after p.2 p'.2) (m s) (m' s')

namespace Together

theorem pure {a : α} {b : β} (h : results a b) :
    Together after after results (Pure.pure a) (Pure.pure b) :=
  fun _ _ related => .pure ⟨h, related⟩

theorem bind {results' : γ → δ → Prop} {f : α → StateT σ Logged γ} {f' : β → StateT σ Logged δ}
    (h : Together before between results m m')
    (h' : ∀ a b, results a b → Together between after results' (f a) (f' b)) :
    Together before after results' (m >>= f) (m' >>= f') :=
  fun s s' related => (h s s' related).bind fun p p' both => h' p.1 p'.1 both.1 p.2 p'.2 both.2

theorem lift {result : Except Fault α} {result' : Except Fault β}
    (h : NameResolution.Agree results result result') :
    Together after after results (liftM (Logged.lift result) : StateT σ Logged α)
      (liftM (Logged.lift result')) :=
  fun _ _ related => (Logged.Agree.lift h).bind fun _ _ holds => .pure ⟨holds, related⟩

/-- What both read are related states, and they are no less so afterwards. -/
theorem reads {f : σ → StateT σ Logged α} {f' : σ → StateT σ Logged β}
    (h : ∀ s s', before s s' → Together before after results (f s) (f' s')) :
    Together before after results (get >>= f) (get >>= f') :=
  fun s s' related => h s s' related s s' related

/-- What both read is what they go on with. -/
theorem reads_here {f : σ → StateT σ Logged α} {f' : σ → StateT σ Logged β}
    (h : ∀ s s', before s s' →
      Together (fun t t' => t = s ∧ t' = s') after results (f s) (f' s')) :
    Together before after results (get >>= f) (get >>= f') :=
  fun s s' related => h s s' related s s' ⟨rfl, rfl⟩

theorem modify {g g' : σ → σ} (h : ∀ s s', before s s' → after (g s) (g' s')) :
    Together before after (fun _ _ => True) (modify g : StateT σ Logged PUnit) (modify g') :=
  fun s s' related => .pure ⟨trivial, h s s' related⟩

theorem set {t t' : σ} (h : after t t') :
    Together before after (fun _ _ => True) (set t : StateT σ Logged PUnit) (set t') :=
  fun _ _ _ => .pure ⟨trivial, h⟩

theorem emit (event event' : Event) : Together after after (fun _ _ => True)
    (liftM (Logged.emit event) : StateT σ Logged Unit) (liftM (Logged.emit event')) :=
  fun _ _ related => (Logged.Agree.emit event event').bind fun _ _ _ => .pure ⟨trivial, related⟩

/-- What is only logged makes no difference, be it logged or not. -/
theorem traced {traces traces' : Prop} [Decidable traces] [Decidable traces']
    {text text' : Except Fault String} (printed : Yields False text fun _ => True)
    (printed' : Yields False text' fun _ => True) (event : String → Event)
    (h : Together before after results m m') :
    Together before after results
      (if traces then do
        Logged.emit (event (← (liftM (Logged.lift text) : StateT σ Logged String))); m else m)
      (if traces' then do
        Logged.emit (event (← (liftM (Logged.lift text') : StateT σ Logged String))); m'
        else m') := by
  -- the state is handed on to what is only logged before the rest
  intro s s' related
  have at_state {δ : Type} (traces : Prop) [Decidable traces] {text : Except Fault String}
      (printed : Yields False text fun _ => True) (m : StateT σ Logged δ) (s : σ) :
      (if traces then do
        Logged.emit (event (← (liftM (Logged.lift text) : StateT σ Logged String))); m
        else m : StateT σ Logged δ) s =
        if traces then do Logged.emit (event (← Logged.lift text)); m s else m s := by
    obtain ⟨text, rfl, -⟩ := Yields.false_iff.mp printed
    split <;> rfl
  rw [at_state traces printed, at_state traces' printed']
  exact .traced printed printed' event (h s s' related)

/-- Where both log or neither does, they may also come to the same fault in printing. -/
theorem traced_of_agree {traces : Prop} [Decidable traces] {text text' : Except Fault String}
    (printed : NameResolution.Agree (fun _ _ => True) text text') (event : String → Event)
    (h : Together after after results m m') :
    Together after after results
      (if traces then do
        Logged.emit (event (← (liftM (Logged.lift text) : StateT σ Logged String))); m else m)
      (if traces then do
        Logged.emit (event (← (liftM (Logged.lift text') : StateT σ Logged String))); m'
        else m') := by
  split
  · exact .bind (.lift printed) fun _ _ _ => .bind (.emit _ _) fun _ _ _ => h
  · exact h

end Together

end

end NameResolution
