import NameResolution.Proofs.Import.Completion
import NameResolution.Proofs.Import.Congruence

/-! # Deeper lookups

    Lookups are tied by a bound on their nesting. A part of the import phase
    over lookups with one bound does what it does over lookups with a greater
    one, unless it is cut off by a fault. Each part is followed once, over any
    two ways to look names up of which one is a cut of the other. -/

namespace NameResolution

variable {n : Nat}

/-! ## Cutting off -/

/-- The first does what the second does, unless it is cut off by a fault. -/
def Importing.Cuts {α : Type} (m m' : Importing n α) : Prop :=
  ∀ s log, m s log = m' s log ∨ ∃ fault log', m s log = .error fault log'

/-- The same of attempts. -/
def Attempt.Cuts {α : Type} (m m' : Attempt n α) : Prop := Importing.Cuts m.run m'.run

namespace Importing.Cuts

variable {α β : Type} {m m' : Importing n α}

theorem refl (m : Importing n α) : Cuts m m := fun _ _ => .inl rfl

theorem trans {m'' : Importing n α} (h : Cuts m m') (h' : Cuts m' m'') : Cuts m m'' := by
  intro s log
  rcases h s log with same | cut
  · rw [same]
    exact h' s log
  · exact .inr cut

/-- Who is cut off does not come to what follows. -/
theorem bind {f f' : α → Importing n β} (h : Cuts m m') (h' : ∀ a, Cuts (f a) (f' a)) :
    Cuts (m >>= f) (m' >>= f') := by
  intro s log
  show EStateM.bind (m s) (fun p => f p.1 p.2) log =
      EStateM.bind (m' s) (fun p => f' p.1 p.2) log ∨
    ∃ fault log', EStateM.bind (m s) (fun p => f p.1 p.2) log = .error fault log'
  unfold EStateM.bind
  rcases h s log with same | ⟨fault, log', cut⟩
  · rw [same]
    cases m' s log with
    | ok p log₁ => exact h' p.1 p.2 log₁
    | error fault log₁ => exact .inl rfl
  · rw [cut]
    exact .inr ⟨fault, log', rfl⟩

/-- What comes first may be the same in both. -/
theorem after (m : Importing n α) {f f' : α → Importing n β} (h : ∀ a, Cuts (f a) (f' a)) :
    Cuts (m >>= f) (m >>= f') := (refl m).bind h

theorem forM {f f' : α → Importing n PUnit} (xs : List α) (h : ∀ x, Cuts (f x) (f' x)) :
    Cuts (xs.forM f) (xs.forM f') := by
  induction xs with
  | nil => exact refl _
  | cons x xs ih => exact (h x).bind fun _ => ih

/-- Who goes through is not cut off. -/
theorem eq_of_ok (h : Cuts m m') {s : ImportState n} {log log' : Log}
    {r : α × ImportState n} (run : m s log = .ok r log') : m' s log = .ok r log' := by
  rcases h s log with same | ⟨_, _, cut⟩
  · rw [← same, run]
  · rw [run] at cut
    cases cut

end Importing.Cuts

namespace Attempt.Cuts

variable {α β : Type} {m m' : Attempt n α}

theorem refl (m : Attempt n α) : Cuts m m := Importing.Cuts.refl _

theorem trans {m'' : Attempt n α} (h : Cuts m m') (h' : Cuts m' m'') : Cuts m m'' :=
  Importing.Cuts.trans h h'

theorem bind {f f' : α → Attempt n β} (h : Cuts m m') (h' : ∀ a, Cuts (f a) (f' a)) :
    Cuts (m >>= f) (m' >>= f') := by
  apply Importing.Cuts.bind h
  intro r
  cases r with
  | ok a => exact h' a
  | error failure => exact Importing.Cuts.refl _

theorem after (m : Attempt n α) {f f' : α → Attempt n β} (h : ∀ a, Cuts (f a) (f' a)) :
    Cuts (m >>= f) (m >>= f') := (refl m).bind h

end Attempt.Cuts

/-! ## Over any lookups -/

/-- To be cut off is kept when parts are put together. -/
theorem Importing.congruence_cuts (imports : Imports n) :
    Importing.Congruence imports imports.lintPrivateAccess Importing.Cuts where
  pure _ := .refl _
  bind := .bind
  lift _ := .refl _
  reads h s log := h s s rfl rfl s log
  status _ := .refl _
  note _ _ _ := .refl _
  setStatus _ _ _ _ := .refl _
  report _ := .refl _
  emit _ := .refl _
  ends := .refl _
  bindImport _ _ _ _ _ := .refl _
  checkPrivate _ _ _ _ := .refl _

namespace Lookup

open Importing

/-- Whatever is asked, the first does what the second does, unless it is cut off. -/
def Cuts (lookup lookup' : Lookup n) : Prop :=
  ∀ asker module ns name,
    Attempt.Cuts (lookup asker module ns name) (lookup' asker module ns name)

variable {imports : Imports n} {lookup lookup' : Lookup n}

namespace Cuts

theorem refl (lookup : Lookup n) : Cuts lookup lookup := fun _ _ _ _ => .refl _

theorem trans {lookup'' : Lookup n} (h : Cuts lookup lookup') (h' : Cuts lookup' lookup'') :
    Cuts lookup lookup'' := fun asker module ns name =>
  (h asker module ns name).trans (h' asker module ns name)

theorem resolveSingle (h : Cuts lookup lookup') (i : Fin n) (opened searched : List (Fin n)) :
    Importing.Cuts (resolveSingle imports lookup i opened searched)
      (resolveSingle imports lookup' i opened searched) :=
  (congruence_cuts imports).resolveSingle h i opened searched

theorem findSingle (h : Cuts lookup lookup') (asker : Asker n) (target : ImportTarget) :
    Attempt.Cuts (findSingle imports lookup asker target)
      (findSingle imports lookup' asker target) :=
  (congruence_cuts imports).relates.findSingle (h asker) imports target

theorem globPath (h : Cuts lookup lookup') (asker : Asker n) :
    Attempt.Cuts (globPath imports lookup asker) (globPath imports lookup' asker) :=
  (congruence_cuts imports).relates.globPath (h asker) imports

theorem globSource (h : Cuts lookup lookup') (i : Fin n) (opened searched : List (Fin n)) :
    Importing.Cuts (globSource imports lookup i opened searched)
      (globSource imports lookup' i opened searched) :=
  (congruence_cuts imports).globSource h i opened searched

/-- One more level of nesting. -/
theorem step (h : Cuts lookup lookup') : Cuts (step imports lookup) (step imports lookup') :=
  (congruence_cuts imports).step h

end Cuts

/-- Who may not nest at all is cut off at once. -/
theorem cuts_upTo_zero (lookup : Lookup n) : Cuts (upTo imports 0) lookup :=
  fun _ _ _ _ _ log => .inr ⟨.lookupTooDeep, log, rfl⟩

theorem cuts_upTo_succ (depth : Nat) : Cuts (upTo imports depth) (upTo imports (depth + 1)) := by
  induction depth with
  | zero => exact cuts_upTo_zero _
  | succ depth ih => exact ih.step

/-- A greater bound only cuts off less. -/
theorem cuts_upTo {depth depth' : Nat} (le : depth ≤ depth') :
    Cuts (upTo imports depth) (upTo imports depth') := by
  induction le with
  | refl => exact .refl _
  | step _ ih => exact ih.trans (cuts_upTo_succ _)

end Lookup

end NameResolution
