import NameResolution.Log

/-! # Runs

    What a part of a pass does, said of the state and the log it starts from. A
    fault has no result to speak of: where it must not come up it is `False`
    that has to hold of it, and `True` where it is left aside. The rules of each
    layer are stated as equivalences, so a definition is followed by rewriting
    with them. -/

namespace NameResolution

/-! ## Results -/

/-- What holds of a result; of a fault it is `onFault`. -/
def Yields {α : Type} (onFault : Prop) (result : Except Fault α) (post : α → Prop) : Prop :=
  match result with
  | .ok a => post a
  | .error _ => onFault

namespace Yields

variable {α β : Type} {onFault : Prop}

@[simp] theorem ok_iff {a : α} {post : α → Prop} :
    Yields onFault (.ok a) post ↔ post a := Iff.rfl

@[simp] theorem error_iff {fault : Fault} {post : α → Prop} :
    Yields onFault (.error fault) post ↔ onFault := Iff.rfl

@[simp] theorem pure_iff {a : α} {post : α → Prop} :
    Yields onFault (pure a) post ↔ post a := Iff.rfl

@[simp] theorem throw_iff {fault : Fault} {post : α → Prop} :
    Yields onFault (throw fault) post ↔ onFault := Iff.rfl

@[simp] theorem bind_iff {result : Except Fault α} {f : α → Except Fault β} {post : β → Prop} :
    Yields onFault (result >>= f) post ↔
      Yields onFault result fun a => Yields onFault (f a) post := by
  cases result <;> rfl

@[simp] theorem map_iff {result : Except Fault α} {f : α → β} {post : β → Prop} :
    Yields onFault (f <$> result) post ↔ Yields onFault result fun a => post (f a) := by
  cases result <;> rfl

theorem mono {result : Except Fault α} {post post' : α → Prop}
    (h : Yields onFault result post) (imp : ∀ a, post a → post' a) :
    Yields onFault result post' := by
  cases result with
  | ok a => exact imp a h
  | error fault => exact h

/-- A result that is no fault. -/
theorem false_iff {result : Except Fault α} {post : α → Prop} :
    Yields False result post ↔ ∃ a, result = .ok a ∧ post a := by
  cases result <;> simp

theorem true_iff {result : Except Fault α} {post : α → Prop} :
    Yields True result post ↔ ∀ a, result = .ok a → post a := by
  cases result <;> simp

/-- Where faults are left aside, what holds of everything holds of a result. -/
theorem trivial_of_true {result : Except Fault α} {post : α → Prop} (h : ∀ a, post a) :
    Yields True result post := true_iff.mpr fun a _ => h a

theorem mapM {f : α → Except Fault β} {post : β → Prop} (xs : List α)
    (h : ∀ x ∈ xs, Yields onFault (f x) post) :
    Yields onFault (xs.mapM f) fun ys => ∀ y ∈ ys, post y := by
  induction xs with
  | nil =>
    rw [List.mapM_nil, pure_iff]
    exact List.forall_mem_nil _
  | cons x xs ih =>
    simp only [List.mapM_cons, bind_iff, pure_iff]
    apply (h x (by simp)).mono
    intro y held
    exact (ih fun x mem => h x (by simp [mem])).mono fun ys all => by simpa using ⟨held, all⟩

theorem anyM {test : α → Except Fault Bool} (xs : List α)
    (h : ∀ x ∈ xs, Yields onFault (test x) fun _ => True) :
    Yields onFault (xs.anyM test) fun _ => True := by
  induction xs with
  | nil => trivial
  | cons x xs ih =>
    rw [List.anyM, bind_iff]
    apply (h x (by simp)).mono
    intro b _
    cases b
    · exact ih fun x mem => h x (by simp [mem])
    · trivial

theorem findM? {test : α → Except Fault Bool} {post : α → Prop} (xs : List α)
    (h : ∀ x ∈ xs, Yields onFault (test x) fun b => b = true → post x) :
    Yields onFault (xs.findM? test) fun r => ∀ x, r = some x → post x := by
  induction xs with
  | nil =>
    intro x found
    cases found
  | cons x xs ih =>
    rw [List.findM?, bind_iff]
    apply (h x (by simp)).mono
    intro b held
    cases b
    · exact ih fun x mem => h x (by simp [mem])
    · rintro _ ⟨⟩
      exact held rfl

theorem filterMapM {f : α → Except Fault (Option β)} (xs : List α)
    (h : ∀ x ∈ xs, Yields onFault (f x) fun _ => True) :
    Yields onFault (xs.filterMapM f) fun _ => True := by
  induction xs with
  | nil => trivial
  | cons x xs ih =>
    have rest := ih fun x mem => h x (by simp [mem])
    rw [List.filterMapM_cons, bind_iff]
    apply (h x (by simp)).mono
    intro r _
    cases r with
    | none => exact rest
    | some y =>
      rw [bind_iff]
      exact rest.mono fun _ _ => trivial

theorem filterAuxM {test : α → Except Fault Bool} {post : α → Prop} (xs kept : List α)
    (h : ∀ x ∈ xs, Yields onFault (test x) fun _ => True) (held : ∀ x ∈ xs, post x)
    (held' : ∀ x ∈ kept, post x) :
    Yields onFault (xs.filterAuxM test kept) fun ys => ∀ y ∈ ys, post y := by
  induction xs generalizing kept with
  | nil => exact held'
  | cons x xs ih =>
    rw [List.filterAuxM, bind_iff]
    apply (h x (by simp)).mono
    intro b _
    refine ih _ (fun y mem => h y (by simp [mem])) (fun y mem => held y (by simp [mem])) ?_
    -- what is kept so far is either all of it, or has this element in front
    intro y mem
    cases b with
    | false => exact held' y mem
    | true =>
      rcases List.mem_cons.mp mem with rfl | mem
      · exact held y (by simp)
      · exact held' y mem

/-- What holds of all elements holds of those that are kept. -/
theorem filterM {test : α → Except Fault Bool} {post : α → Prop} (xs : List α)
    (h : ∀ x ∈ xs, Yields onFault (test x) fun _ => True) (held : ∀ x ∈ xs, post x) :
    Yields onFault (xs.filterM test) fun ys => ∀ y ∈ ys, post y := by
  rw [List.filterM, bind_iff]
  apply (filterAuxM xs [] h held (List.forall_mem_nil _)).mono
  intro ys all
  rw [pure_iff]
  intro y mem
  exact all y (List.mem_reverse.mp mem)

end Yields

section

variable {α : Type} {test : α → Except Fault Bool}

theorem exists_of_anyM_ok {xs : List α} (h : xs.anyM test = .ok true) :
    ∃ x ∈ xs, test x = .ok true := by
  induction xs with
  | nil => cases h
  | cons x xs ih =>
    rw [List.anyM] at h
    cases result : test x with
    | error fault =>
      rw [result] at h
      cases h
    | ok b =>
      rw [result] at h
      cases b with
      | true => exact ⟨x, List.mem_cons_self .., result⟩
      | false =>
        obtain ⟨y, mem, holds⟩ := ih h
        exact ⟨y, List.mem_cons_of_mem _ mem, holds⟩

theorem forall_of_anyM_ok {xs : List α} (h : xs.anyM test = .ok false) :
    ∀ x ∈ xs, test x = .ok false := by
  induction xs with
  | nil => exact List.forall_mem_nil _
  | cons x xs ih =>
    rw [List.anyM] at h
    cases result : test x with
    | error fault =>
      rw [result] at h
      cases h
    | ok b =>
      rw [result] at h
      cases b with
      | true => cases h
      | false => exact List.forall_mem_cons.mpr ⟨result, ih h⟩

theorem mem_filterAuxM_ok {xs kept ys : List α} (h : xs.filterAuxM test kept = .ok ys) {x : α}
    (mem : x ∈ kept ∨ x ∈ xs ∧ test x = .ok true) : x ∈ ys := by
  induction xs generalizing kept with
  | nil =>
    cases h
    exact mem.resolve_right fun both => List.not_mem_nil both.1
  | cons y xs ih =>
    rw [List.filterAuxM] at h
    cases result : test y with
    | error fault =>
      rw [result] at h
      cases h
    | ok b =>
      rw [result] at h
      refine ih h ?_
      rcases mem with mem | ⟨mem, holds⟩
      · cases b
        · exact .inl mem
        · exact .inl (List.mem_cons_of_mem _ mem)
      · rcases List.mem_cons.mp mem with rfl | mem
        · rw [result] at holds
          cases holds
          exact .inl (List.mem_cons_self ..)
        · exact .inr ⟨mem, holds⟩

theorem holds_of_mem_filterAuxM {xs kept ys : List α} (h : xs.filterAuxM test kept = .ok ys)
    (held : ∀ x ∈ kept, test x = .ok true) {y : α} (mem : y ∈ ys) : test y = .ok true := by
  induction xs generalizing kept with
  | nil =>
    cases h
    exact held y mem
  | cons x xs ih =>
    rw [List.filterAuxM] at h
    cases result : test x with
    | error fault =>
      rw [result] at h
      cases h
    | ok b =>
      rw [result] at h
      refine ih h fun z mem' => ?_
      cases b with
      | false => exact held z mem'
      | true =>
        rcases List.mem_cons.mp mem' with rfl | mem'
        · exact result
        · exact held z mem'

/-- What is kept has passed the test. -/
theorem holds_of_mem_filterM {xs ys : List α} (h : xs.filterM test = .ok ys) {y : α}
    (mem : y ∈ ys) : test y = .ok true := by
  rw [List.filterM] at h
  obtain ⟨kept, result, eq⟩ : ∃ kept, xs.filterAuxM test [] = .ok kept ∧ kept.reverse = ys := by
    cases result : xs.filterAuxM test [] with
    | error fault =>
      rw [result] at h
      cases h
    | ok kept =>
      rw [result] at h
      cases h
      exact ⟨kept, rfl, rfl⟩
  rw [← eq] at mem
  exact holds_of_mem_filterAuxM result (List.forall_mem_nil _) (List.mem_reverse.mp mem)

/-- What passes the test is kept. -/
theorem mem_filterM_ok {xs ys : List α} (h : xs.filterM test = .ok ys) {x : α} (mem : x ∈ xs)
    (holds : test x = .ok true) : x ∈ ys := by
  rw [List.filterM] at h
  cases result : xs.filterAuxM test [] with
  | error fault =>
    rw [result] at h
    cases h
  | ok kept =>
    rw [result] at h
    cases h
    exact List.mem_reverse.mpr (mem_filterAuxM_ok result (.inr ⟨mem, holds⟩))

theorem filterAuxM_of_ok {holds : α → Bool} {xs kept : List α}
    (h : ∀ x ∈ xs, test x = .ok (holds x)) :
    xs.filterAuxM test kept = .ok ((xs.filter holds).reverse ++ kept) := by
  induction xs generalizing kept with
  | nil => rfl
  | cons x xs ih =>
    have rest (kept : List α) := @ih kept fun y mem => h y (List.mem_cons_of_mem _ mem)
    rw [List.filterAuxM, h x List.mem_cons_self]
    show xs.filterAuxM test (bif holds x then x :: kept else kept) = _
    rw [rest, List.filter_cons]
    cases holds x <;> simp

/-- Where no test fails, those that pass are kept. -/
theorem filterM_of_ok {holds : α → Bool} {xs : List α} (h : ∀ x ∈ xs, test x = .ok (holds x)) :
    xs.filterM test = .ok (xs.filter holds) := by
  rw [List.filterM, filterAuxM_of_ok h]
  simp [bind, Except.bind, pure, Except.pure]

theorem mapM_of_ok {β : Type} {f : α → Except Fault β} {g : α → β} {xs : List α}
    (h : ∀ x ∈ xs, f x = .ok (g x)) : xs.mapM f = .ok (xs.map g) := by
  induction xs with
  | nil => rfl
  | cons x xs ih =>
    obtain ⟨first, others⟩ := List.forall_mem_cons.mp h
    rw [List.mapM_cons, first, ih others]
    rfl

theorem filterMapM_of_ok {β : Type} {f : α → Except Fault (Option β)} {g : α → Option β}
    {xs : List α} (h : ∀ x ∈ xs, f x = .ok (g x)) :
    xs.filterMapM f = .ok (xs.filterMap g) := by
  induction xs with
  | nil => rfl
  | cons x xs ih =>
    obtain ⟨first, others⟩ := List.forall_mem_cons.mp h
    rw [List.filterMapM_cons, first, ih others, List.filterMap_cons]
    cases g x <;> rfl

end

/-- Two results one after another. -/
theorem Except.bind_eq_ok {α β : Type} {result : Except Fault α} {f : α → Except Fault β} {b : β} :
    result >>= f = .ok b ↔ ∃ a, result = .ok a ∧ f a = .ok b := by
  cases result with
  | ok a =>
    constructor
    · exact fun h => ⟨a, rfl, h⟩
    · rintro ⟨_, ⟨⟩, h⟩
      exact h
  | error fault =>
    constructor
    · intro h
      cases h
    · rintro ⟨_, ⟨⟩, _⟩

/-! ## Logged computations -/

namespace Logged

variable {α β : Type}

theorem bind_eq_ok {x : Logged α} {f : α → Logged β} {b : β} {log log' : Log} :
    (x >>= f) log = .ok b log' ↔ ∃ a log₁, x log = .ok a log₁ ∧ f a log₁ = .ok b log' := by
  show EStateM.bind x f log = _ ↔ _
  unfold EStateM.bind
  cases x log with
  | ok a log₁ =>
    constructor
    · exact fun h => ⟨a, log₁, rfl, h⟩
    · rintro ⟨_, _, ⟨⟩, h⟩
      exact h
  | error fault log₁ =>
    constructor
    · intro h
      cases h
    · rintro ⟨_, _, ⟨⟩, _⟩

theorem bind_of_ok {x : Logged α} {f : α → Logged β} {a : α} {log log' : Log}
    (h : x log = .ok a log') : (x >>= f) log = f a log' := by
  show EStateM.bind x f log = _
  rw [EStateM.bind, h]

/-- What comes after a fault is left out. -/
theorem bind_of_error {x : Logged α} {f : α → Logged β} {fault : Fault} {log log' : Log}
    (h : x log = .error fault log') : (x >>= f) log = .error fault log' := by
  show EStateM.bind x f log = _
  rw [EStateM.bind, h]

/-- Whether a computation goes through, with a result that passes a check. -/
def passes (action : Logged α) (log : Log) (check : α → Bool) : Bool :=
  match action log with
  | .ok a _ => check a
  | .error _ _ => false

theorem exists_of_check {action : Logged α} {log : Log} {check : α → Bool}
    (h : passes action log check = true) :
    ∃ a log', action log = .ok a log' ∧ check a = true := by
  unfold passes at h
  cases result : action log with
  | ok a log' =>
    rw [result] at h
    exact ⟨a, log', rfl, h⟩
  | error fault log' =>
    rw [result] at h
    cases h

end Logged

/-! ## Runs over a state -/

/-- What holds of the result of a run, of the state and of the log it ends with. -/
def Run {σ α : Type} (onFault : Prop) (m : StateT σ Logged α) (s : σ) (log : Log)
    (post : α → σ → Log → Prop) : Prop :=
  match m s log with
  | .ok (a, s') log' => post a s' log'
  | .error _ _ => onFault

namespace Run

variable {σ α β : Type} {onFault : Prop} {s : σ} {log : Log}

@[simp] theorem pure_iff {a : α} {post : α → σ → Log → Prop} :
    Run onFault (pure a : StateT σ Logged α) s log post ↔ post a s log := Iff.rfl

@[simp] theorem bind_iff {m : StateT σ Logged α} {f : α → StateT σ Logged β}
    {post : β → σ → Log → Prop} :
    Run onFault (m >>= f) s log post ↔
      Run onFault m s log fun a s' log' => Run onFault (f a) s' log' post := by
  show (match EStateM.bind (m s) (fun p => f p.1 p.2) log with
    | .ok (a, s') log' => post a s' log'
    | .error _ _ => onFault) ↔ _
  unfold Run EStateM.bind
  cases m s log <;> rfl

@[simp] theorem map_iff {m : StateT σ Logged α} {f : α → β} {post : β → σ → Log → Prop} :
    Run onFault (f <$> m) s log post ↔ Run onFault m s log fun a => post (f a) := by
  show (match EStateM.map (fun p => (f p.1, p.2)) (m s) log with
    | .ok (a, s') log' => post a s' log'
    | .error _ _ => onFault) ↔ _
  unfold Run EStateM.map
  cases m s log <;> rfl

@[simp] theorem get_iff {post : σ → σ → Log → Prop} :
    Run onFault (get : StateT σ Logged σ) s log post ↔ post s s log := Iff.rfl

@[simp] theorem set_iff {s' : σ} {post : PUnit → σ → Log → Prop} :
    Run onFault (set s' : StateT σ Logged PUnit) s log post ↔ post ⟨⟩ s' log := Iff.rfl

@[simp] theorem modify_iff {f : σ → σ} {post : PUnit → σ → Log → Prop} :
    Run onFault (modify f : StateT σ Logged PUnit) s log post ↔ post ⟨⟩ (f s) log := Iff.rfl

@[simp] theorem emit_iff {event : Event} {post : Unit → σ → Log → Prop} :
    Run onFault (liftM (Logged.emit event) : StateT σ Logged Unit) s log post ↔
      post ⟨⟩ s (log.push event) := Iff.rfl

@[simp] theorem note_iff {moment : Moment} {post : Unit → σ → Log → Prop} :
    Run onFault (liftM (Logged.note moment) : StateT σ Logged Unit) s log post ↔
      post ⟨⟩ s (log.note moment) := Iff.rfl

@[simp] theorem lift_iff {result : Except Fault α} {post : α → σ → Log → Prop} :
    Run onFault (liftM (Logged.lift result) : StateT σ Logged α) s log post ↔
      Yields onFault result fun a => post a s log := by
  cases result <;> rfl

theorem mono {m : StateT σ Logged α} {post post' : α → σ → Log → Prop}
    (h : Run onFault m s log post) (imp : ∀ a s' log', post a s' log' → post' a s' log') :
    Run onFault m s log post' := by
  unfold Run at *
  cases result : m s log with
  | ok p log' => rw [result] at h; exact imp _ _ _ h
  | error fault log' => rw [result] at h; exact h

/-- What is said of a run with its faults left aside may be added to anything else. -/
theorem and {m : StateT σ Logged α} {post post' : α → σ → Log → Prop}
    (h : Run onFault m s log post) (h' : Run True m s log post') :
    Run onFault m s log fun a s' log' => post a s' log' ∧ post' a s' log' := by
  unfold Run at *
  cases result : m s log with
  | ok p log' =>
    rw [result] at h h'
    exact ⟨h, h'⟩
  | error fault log' => rw [result] at h; exact h

/-- What each round of a loop keeps is kept by the loop. -/
theorem forM {f : α → StateT σ Logged PUnit} {inv : σ → Log → Prop} (xs : List α) (h : inv s log)
    (keeps : ∀ x ∈ xs, ∀ s log, inv s log → Run onFault (f x) s log fun _ => inv) :
    Run onFault (xs.forM f) s log fun _ => inv := by
  induction xs generalizing s log with
  | nil => exact h
  | cons x xs ih =>
    -- the loop is its first round and the loop over the others
    show Run onFault (f x >>= fun _ => xs.forM f) s log _
    rw [bind_iff]
    apply (keeps x (by simp) s log h).mono
    intro _ s' log' h'
    exact ih h' fun y mem => keeps y (by simp [mem])

/-- What holds of a run holds of its result. -/
theorem of_ok {m : StateT σ Logged α} {post : α → σ → Log → Prop}
    (h : Run onFault m s log post) {a : α} {s' : σ} {log' : Log}
    (result : m s log = .ok (a, s') log') : post a s' log' := by
  unfold Run at h
  rw [result] at h
  exact h

theorem false_iff {m : StateT σ Logged α} {post : α → σ → Log → Prop} :
    Run False m s log post ↔ ∃ a s' log', m s log = .ok (a, s') log' ∧ post a s' log' := by
  unfold Run
  constructor
  · intro h
    rcases result : m s log with ⟨⟨a, s'⟩, log'⟩ | ⟨fault, log'⟩
    · rw [result] at h
      exact ⟨a, s', log', rfl, h⟩
    · rw [result] at h
      exact h.elim
  · rintro ⟨a, s', log', result, h⟩
    rw [result]
    exact h

/-- Two runs one after the other. -/
theorem bind_eq_ok {m : StateT σ Logged α} {f : α → StateT σ Logged β} {b : β} {s' : σ}
    {log' : Log} : (m >>= f) s log = .ok (b, s') log' ↔
      ∃ a s₁ log₁, m s log = .ok (a, s₁) log₁ ∧ f a s₁ log₁ = .ok (b, s') log' := by
  refine Logged.bind_eq_ok.trans ⟨?_, ?_⟩
  · rintro ⟨⟨a, s₁⟩, log₁, first, second⟩
    exact ⟨a, s₁, log₁, first, second⟩
  · rintro ⟨a, s₁, log₁, first, second⟩
    exact ⟨(a, s₁), log₁, first, second⟩

theorem true_iff {m : StateT σ Logged α} {post : α → σ → Log → Prop} :
    Run True m s log post ↔ ∀ a s' log', m s log = .ok (a, s') log' → post a s' log' := by
  unfold Run
  rcases m s log with ⟨⟨a, s'⟩, log'⟩ | ⟨fault, log'⟩ <;> simp

end Run

/-! ## Runs that may give up -/

/-- What holds of a run that ends with a result or an error of its own. -/
def Tries {ε σ α : Type} (onFault : Prop) (m : ExceptT ε (StateT σ Logged) α) (s : σ)
    (log : Log) (post : Except ε α → σ → Log → Prop) : Prop :=
  Run onFault m.run s log post

namespace Tries

variable {ε σ α β : Type} {onFault : Prop} {s : σ} {log : Log}

@[simp] theorem pure_iff {a : α} {post : Except ε α → σ → Log → Prop} :
    Tries onFault (pure a : ExceptT ε (StateT σ Logged) α) s log post ↔ post (.ok a) s log :=
  Iff.rfl

@[simp] theorem throw_iff {e : ε} {post : Except ε α → σ → Log → Prop} :
    Tries onFault (throw e : ExceptT ε (StateT σ Logged) α) s log post ↔
      post (.error e) s log := Iff.rfl

/-- What comes after an error is left out. -/
@[simp] theorem bind_iff {m : ExceptT ε (StateT σ Logged) α}
    {f : α → ExceptT ε (StateT σ Logged) β} {post : Except ε β → σ → Log → Prop} :
    Tries onFault (m >>= f) s log post ↔
      Tries onFault m s log fun r s' log' =>
        match r with
        | .ok a => Tries onFault (f a) s' log' post
        | .error e => post (.error e) s' log' := by
  show Run onFault (m.run >>= ExceptT.bindCont f) s log post ↔ _
  rw [Run.bind_iff]
  refine iff_of_eq (congrArg (Run onFault m.run s log) ?_)
  funext r s' log'
  cases r <;> rfl

@[simp] theorem get_iff {post : Except ε σ → σ → Log → Prop} :
    Tries onFault (get : ExceptT ε (StateT σ Logged) σ) s log post ↔ post (.ok s) s log := Iff.rfl

/-- A run that cannot give up. -/
@[simp] theorem lift_iff {m : StateT σ Logged α} {post : Except ε α → σ → Log → Prop} :
    Tries onFault (ExceptT.lift m : ExceptT ε (StateT σ Logged) α) s log post ↔
      Run onFault m s log fun a => post (.ok a) := by
  show Run onFault (Except.ok <$> m) s log post ↔ _
  rw [Run.map_iff]

@[simp] theorem liftM_iff {m : StateT σ Logged α} {post : Except ε α → σ → Log → Prop} :
    Tries onFault (liftM m : ExceptT ε (StateT σ Logged) α) s log post ↔
      Run onFault m s log fun a => post (.ok a) := lift_iff

@[simp] theorem run_iff {m : ExceptT ε (StateT σ Logged) α}
    {post : Except ε α → σ → Log → Prop} :
    Run onFault m.run s log post ↔ Tries onFault m s log post := Iff.rfl

theorem mono {m : ExceptT ε (StateT σ Logged) α} {post post' : Except ε α → σ → Log → Prop}
    (h : Tries onFault m s log post) (imp : ∀ r s' log', post r s' log' → post' r s' log') :
    Tries onFault m s log post' := Run.mono h imp

end Tries

end NameResolution
