import NameResolution.Proofs.Import.Finding
import Mathlib.Data.List.Infix
import Mathlib.Data.List.Nodup
import Mathlib.Logic.Relation

/-! # Orderly moments

    Directives and globs are handed from one part of the import phase to the
    next in two lists, and the phase relies on what they tell: the stack is
    where a cycle is read from, and both together bound the nesting. A moment is
    orderly if the lists tell what the statuses say, if what is about to be done
    fits, and if no status has gone back on the way to it. When each directive
    in progress was opened is told by the moments before. -/

namespace NameResolution

variable {n : Nat}

/-! ## What is orderly -/

/-- The ways a status may change. -/
inductive ImportStatus.Advances : ImportStatus → ImportStatus → Prop
  | opens : Advances .pending .inProgress
  | done (source : Option ModuleId) : Advances .inProgress (.done source)
  | fails : Advances .inProgress .failed
  | failsForCycle : Advances .inProgress .cycleFailed

/-- A status that has come of another one. -/
abbrev ImportStatus.Reaches : ImportStatus → ImportStatus → Prop :=
  Relation.ReflTransGen ImportStatus.Advances

/-- A directive, with the state it was opened in. -/
structure Opening (n : Nat) where
  index : Fin n
  before : ImportState n

/-- In the course of what something is done: the lists that are handed on, and beside them a diary
    of the directives in progress, which the phase itself does not keep. -/
structure Underway (n : Nat) where
  /-- The diary, the first opened first -/
  openings : List (Opening n)
  /-- The directives that are handed on as opened -/
  opened : List (Fin n)
  /-- The globs that are handed on as searched -/
  searched : List (Fin n)

namespace Underway

/-- Outside of all directives. -/
def nothing : Underway n := ⟨[], [], []⟩

/-- In the course of one more directive. -/
def opening (underway : Underway n) (i : Fin n) (before : ImportState n) : Underway n :=
  ⟨underway.openings ++ [⟨i, before⟩], underway.opened ++ [i], underway.searched⟩

/-- In the course of one more search. -/
def searching (underway : Underway n) (i : Fin n) : Underway n :=
  { underway with searched := underway.searched ++ [i] }

/-- Something is about to be done in the course of this. -/
def moment (underway : Underway n) (task : ImportTask n) (s : ImportState n) : ImportMoment n :=
  ⟨underway.opened, underway.searched, task, s⟩

end Underway

/-- It has been noted that the directive was about to be opened, and in which state. -/
def Opening.NotedIn (earlier : List Moment) (o : Opening n) : Prop :=
  ∃ opened searched,
    Moment.importing ⟨opened, searched, .setStatus o.index .inProgress, o.before⟩ ∈ earlier

/-- After these moments the lists that are handed on are up to date. -/
structure Underway.UpToDate (imports : Imports n) (earlier : List Moment) (underway : Underway n)
    (s : ImportState n) : Prop where
  /-- The diary is about the opened directives, and true -/
  listed : underway.openings.map (·.index) = underway.opened
  noted : ∀ o ∈ underway.openings, o.NotedIn earlier
  opened_nodup : underway.opened.Nodup
  mem_opened : ∀ i, i ∈ underway.opened ↔ s.statusOf i = .inProgress
  searched_nodup : underway.searched.Nodup
  resolved : ∀ i ∈ underway.searched,
    (imports.get i).isGlob = true ∧ ∃ source, s.statusOf i = .done (some source)
  pending : ∀ o ∈ underway.openings, o.before.statusOf o.index = .pending
  /-- Who stands later has been opened later -/
  later : underway.openings.Pairwise fun o o' =>
    o.before.statusOf o'.index = .pending ∧ o'.before.statusOf o.index = .inProgress
  /-- Nobody has become pending again -/
  kept : ∀ o ∈ underway.openings, ∀ i, s.statusOf i = .pending → o.before.statusOf i = .pending

/-- A directive in progress is met again: where it stands on the stack, and what is reported. -/
structure LeadsBack (imports : Imports n) (underway : Underway n) (i : Fin n)
    (s : ImportState n) (outer : List (Opening n)) (here : Opening n)
    (inner : List (Opening n)) : Prop where
  openings : underway.openings = outer ++ here :: inner
  reentered : here.index = i
  /-- It is found on the stack, so nothing is put in the place of its position -/
  position : underway.opened.idxOf? i = some outer.length
  /-- What stands behind it has been opened since, and nothing else has that is in progress -/
  between : ∀ j, j ∈ inner.map (·.index) ↔
    s.statusOf j = .inProgress ∧ j ≠ i ∧ here.before.statusOf j = .pending
  /-- The chain starts and ends with its name, and has in between what has been opened since -/
  reports : ∀ log, Lookup.reportCycle imports underway.opened i s log =
    .ok ((), { s with diagnostics := s.diagnostics ++
      [.importCycle (imports.get i).boundName (imports.get i).span (cycleText
        ((imports.get i).boundName :: inner.map (fun o => (imports.get o.index).boundName) ++
          [(imports.get i).boundName]))] })
      (log.push (.importCycle (imports.get i).pathText))

/-- What is about to be done fits the state. -/
def ImportTask.Fits (imports : Imports n) (underway : Underway n) (s : ImportState n) :
    ImportTask n → Prop
  | .lookUp .. => True
  | .findSource i => (imports.get i).isGlob = true
  | .reportCycle i => ∃ outer here inner, LeadsBack imports underway i s outer here inner
  | .setStatus i status => (s.statusOf i).Advances status

/-- The statuses of a state have come of those at all these moments. -/
def ImportState.Follows (s : ImportState n) (earlier : List Moment) : Prop :=
  ∀ moment : ImportMoment n, .importing moment ∈ earlier →
    ∀ i, (moment.state.statusOf i).Reaches (s.statusOf i)

/-- A moment that is noted after others. Writing takes no part in this. -/
inductive Moment.Orderly (imports : Imports n) (earlier : List Moment) : Moment → Prop where
  | written (defs : Definitions) (tree : ModuleTree) : Orderly imports earlier (.written defs tree)
  | importing {underway : Underway n} {task : ImportTask n} {s : ImportState n}
      (upToDate : underway.UpToDate imports earlier s) (fits : task.Fits imports underway s)
      (follows : s.Follows earlier) :
      Orderly imports earlier (.importing (underway.moment task s))

/-- Who is closed has come to an end. -/
theorem ImportStatus.Advances.closes {status : ImportStatus}
    (h : ImportStatus.inProgress.Advances status) : status ≠ .pending ∧ status ≠ .inProgress := by
  cases h <;> simp

/-! ## Keeping the journal in order -/

/-- The moments in the journal, if one is kept. -/
def Log.moments (log : Log) : List Moment := log.journal.getD []

namespace Importing

/-- A journal is kept, all its moments are orderly, and the state comes of them. -/
structure Kept (imports : Imports n) (s : ImportState n) (log : Log) : Prop where
  journal : log.journal = some log.moments
  orderly : ∀ {earlier : List Moment} {moment : Moment}, earlier ++ [moment] <+: log.moments →
    moment.Orderly imports earlier
  follows : s.Follows log.moments

variable {imports : Imports n} {s s' s'' : ImportState n} {log log' log'' : Log} {i : Fin n}

namespace Kept

theorem moments_note (h : Kept imports s log) (moment : Moment) :
    (log.note moment).moments = log.moments ++ [moment] := by
  rw [Log.moments, Log.note, h.journal]
  rfl

/-- One more moment is noted. -/
theorem note (h : Kept imports s log) {moment : Moment}
    (orderly : moment.Orderly imports log.moments)
    (now : ∀ m : ImportMoment n, moment = .importing m → m.state = s) :
    Kept imports s (log.note moment) := by
  constructor
  case journal =>
    rw [h.moments_note, Log.note, h.journal]
    rfl
  case orderly =>
    intro earlier other before
    rw [h.moments_note] at before
    rcases List.prefix_concat_iff.mp before with whole | before
    · obtain ⟨rfl, last⟩ := List.append_inj' whole rfl
      cases last
      exact orderly
    · exact h.orderly before
  case follows =>
    intro m mem i
    rw [h.moments_note, List.mem_append, List.mem_singleton] at mem
    rcases mem with mem | isLast
    · exact h.follows m mem i
    · rw [now m isLast.symm]

/-- A status is changed as it may be. -/
theorem withStatus (h : Kept imports s log) {status : ImportStatus}
    (advances : (s.statusOf i).Advances status) : Kept imports (s.withStatus i status) log := by
  refine ⟨h.journal, h.orderly, fun moment mem j => (h.follows moment mem j).trans ?_⟩
  rw [ImportState.statusOf_withStatus]
  split
  · next same => exact .single (same ▸ advances)
  · exact .refl

/-- Something else is done, and nothing is noted. -/
theorem of_eq (h : Kept imports s log) (same : s'.statusOf = s.statusOf)
    (journal : log'.journal = log.journal) : Kept imports s' log' := by
  have moments : log'.moments = log.moments := by rw [Log.moments, journal, Log.moments]
  refine ⟨?_, fun {earlier moment} before => h.orderly (moments ▸ before), fun moment mem i => ?_⟩
  · rw [journal, h.journal, moments]
  · rw [same]
    exact h.follows moment (moments ▸ mem) i

end Kept

/-! ## What others do meanwhile -/

/-- Everybody is as before, or was pending and has come to an end. The journal has been kept in
    order. -/
structure Since (imports : Imports n) (s : ImportState n) (log : Log) (s' : ImportState n)
    (log' : Log) : Prop where
  statuses : ∀ i, s'.statusOf i = s.statusOf i ∨ s.statusOf i = .pending ∧ s'.Finished i
  moments : log.moments ⊆ log'.moments
  kept : Kept imports s' log'

namespace Since

theorem of_eq (kept : Kept imports s log) (same : s'.statusOf = s.statusOf)
    (journal : log'.journal = log.journal) : Since imports s log s' log' := by
  refine ⟨fun i => .inl (congrFun same i), fun moment mem => ?_, kept.of_eq same journal⟩
  rwa [Log.moments, journal]

theorem refl (kept : Kept imports s log) : Since imports s log s log := .of_eq kept rfl rfl

theorem trans (h : Since imports s log s' log') (h' : Since imports s' log' s'' log'') :
    Since imports s log s'' log'' := by
  refine ⟨fun i => ?_, List.Subset.trans h.moments h'.moments, h'.kept⟩
  rcases h.statuses i with same | ⟨pending, finished⟩
  · -- whoever has not moved before moves as seen from there
    rw [← same]
    exact h'.statuses i
  · refine .inr ⟨pending, ?_⟩
    rcases h'.statuses i with same | ⟨pending', -⟩
    · unfold ImportState.Finished
      rw [same]
      exact finished
    · exact absurd pending' finished.1

theorem note (kept : Kept imports s log) {moment : Moment}
    (orderly : moment.Orderly imports log.moments)
    (now : ∀ m : ImportMoment n, moment = .importing m → m.state = s) :
    Since imports s log s (log.note moment) := by
  refine ⟨fun _ => .inl rfl, ?_, kept.note orderly now⟩
  rw [kept.moments_note]
  exact List.subset_append_left ..

/-- To write changes no status. -/
theorem writes (kept : Kept imports s log) (same : s'.statusOf = s.statusOf)
    (noted : log.Notes (fun moment => ∃ defs tree, moment = .written defs tree) log') :
    Since imports s log s' log' := by
  obtain ⟨noted, journal, all⟩ := noted
  induction noted generalizing log with
  | nil => exact .of_eq kept same (by simpa using journal)
  | cons moment noted ih =>
    obtain ⟨⟨defs, tree, rfl⟩, others⟩ := List.forall_mem_cons.mp all
    have first : Since imports s log s (log.note (.written defs tree)) :=
      .note kept (.written defs tree) fun _ impossible => by cases impossible
    refine first.trans (ih first.kept ?_ others)
    rw [journal, kept.journal, Log.note, kept.journal]
    simp

/-- Who was not pending has not moved. -/
theorem statusOf (h : Since imports s log s' log') (ne : s.statusOf i ≠ .pending) :
    s'.statusOf i = s.statusOf i :=
  (h.statuses i).resolve_right fun moved => ne moved.1

theorem inProgress_iff (h : Since imports s log s' log') :
    s'.statusOf i = .inProgress ↔ s.statusOf i = .inProgress := by
  rcases h.statuses i with same | ⟨pending, finished⟩
  · rw [same]
  · exact iff_of_false finished.2 (by simp [pending])

theorem pending_of_pending (h : Since imports s log s' log') (pending : s'.statusOf i = .pending) :
    s.statusOf i = .pending := by
  rcases h.statuses i with same | ⟨-, finished⟩
  · rw [← same, pending]
  · exact absurd pending finished.1

end Since

end Importing

/-! ## Keeping the lists up to date -/

namespace Underway.UpToDate

open Importing

variable {imports : Imports n} {earlier : List Moment} {underway : Underway n}
  {s s' : ImportState n} {log log' : Log} {i : Fin n}

/-- Outside of all directives. -/
theorem nothing (none : ∀ i, s.statusOf i ≠ .inProgress) :
    Underway.UpToDate imports earlier .nothing s where
  listed := rfl
  noted := List.forall_mem_nil _
  opened_nodup := .nil
  mem_opened i := iff_of_false List.not_mem_nil (none i)
  searched_nodup := .nil
  resolved := List.forall_mem_nil _
  pending := List.forall_mem_nil _
  later := .nil
  kept := List.forall_mem_nil _

/-- What others do meanwhile changes nothing in the lists. -/
theorem since (h : underway.UpToDate imports log.moments s)
    (since : Since imports s log s' log') : underway.UpToDate imports log'.moments s' where
  listed := h.listed
  noted o mem := by
    obtain ⟨opened, searched, noted⟩ := h.noted o mem
    exact ⟨opened, searched, since.moments noted⟩
  opened_nodup := h.opened_nodup
  mem_opened i := (h.mem_opened i).trans since.inProgress_iff.symm
  searched_nodup := h.searched_nodup
  resolved i mem := by
    obtain ⟨isGlob, source, done⟩ := h.resolved i mem
    refine ⟨isGlob, source, ?_⟩
    rw [since.statusOf (by simp [done]), done]
  pending := h.pending
  later := h.later
  kept o mem i pending := h.kept o mem i (since.pending_of_pending pending)

/-- What is about to be done is noted. -/
theorem note (h : underway.UpToDate imports log.moments s) (kept : Kept imports s log)
    {task : ImportTask n} (fits : task.Fits imports underway s) :
    Since imports s log s (log.note (.importing (underway.moment task s))) := by
  refine .note kept (.importing h fits kept.follows) fun m same => ?_
  cases same
  rfl

theorem not_mem_opened (h : underway.UpToDate imports earlier s) (ne : s.statusOf i ≠ .inProgress) :
    i ∉ underway.opened :=
  fun mem => ne ((h.mem_opened i).mp mem)

/-- A directive is opened, and comes last. -/
theorem opening (h : underway.UpToDate imports earlier s) (pending : s.statusOf i = .pending)
    (noted : Opening.NotedIn earlier ⟨i, s⟩) :
    (underway.opening i s).UpToDate imports earlier (s.withStatus i .inProgress) := by
  have fresh : i ∉ underway.opened := h.not_mem_opened (by simp [pending])
  have opened_before : ∀ o ∈ underway.openings, o.index ∈ underway.opened := by
    intro o mem
    rw [← h.listed]
    exact List.mem_map_of_mem mem
  constructor
  case listed => simp [Underway.opening, h.listed]
  case noted => exact List.forall_mem_append.mpr ⟨h.noted, List.forall_mem_singleton.mpr noted⟩
  case opened_nodup => exact h.opened_nodup.append (List.nodup_singleton i) (by simpa using fresh)
  case mem_opened =>
    intro j
    show j ∈ underway.opened ++ [i] ↔ _
    rw [ImportState.statusOf_withStatus, List.mem_append, List.mem_singleton, h.mem_opened j]
    by_cases same : i = j
    · simp [same]
    · simp [same, Ne.symm same]
  case searched_nodup => exact h.searched_nodup
  case resolved =>
    intro j mem
    obtain ⟨isGlob, source, done⟩ := h.resolved j mem
    exact ⟨isGlob, source, ImportState.statusOf_withStatus_of_ne done (by simp [pending]) _⟩
  case pending =>
    intro o mem
    rcases List.mem_append.mp mem with mem | mem
    · exact h.pending o mem
    · rw [List.mem_singleton.mp mem]
      exact pending
  case later =>
    refine List.pairwise_append.mpr ⟨h.later, List.pairwise_singleton .., fun o mem o' mem' => ?_⟩
    rw [List.mem_singleton.mp mem']
    exact ⟨h.kept o mem i pending, (h.mem_opened _).mp (opened_before o mem)⟩
  case kept =>
    intro o mem j pendingJ
    rw [ImportState.statusOf_withStatus] at pendingJ
    split at pendingJ
    · cases pendingJ
    · rcases List.mem_append.mp mem with mem | mem
      · exact h.kept o mem j pendingJ
      · rw [List.mem_singleton.mp mem]
        exact pendingJ

/-- A glob that has found its source is searched. -/
theorem searching (h : underway.UpToDate imports earlier s) (isGlob : (imports.get i).isGlob = true)
    {source : ModuleId} (done : s.statusOf i = .done (some source))
    (fresh : i ∉ underway.searched) : (underway.searching i).UpToDate imports earlier s where
  listed := h.listed
  noted := h.noted
  opened_nodup := h.opened_nodup
  mem_opened := h.mem_opened
  searched_nodup := h.searched_nodup.append (List.nodup_singleton i) (by simpa using fresh)
  resolved := by
    intro j mem
    rcases List.mem_append.mp mem with mem | mem
    · exact h.resolved j mem
    · rw [List.mem_singleton.mp mem]
      exact ⟨isGlob, source, done⟩
  pending := h.pending
  later := h.later
  kept := h.kept

/-! ## Reading a cycle off the stack -/

/-- Whoever is in progress stands somewhere in the diary. -/
theorem exists_split (h : underway.UpToDate imports earlier s)
    (inProgress : s.statusOf i = .inProgress) :
    ∃ outer here inner, underway.openings = outer ++ here :: inner ∧ here.index = i := by
  have mem : i ∈ underway.openings.map (·.index) := by
    rw [h.listed]
    exact (h.mem_opened i).mpr inProgress
  obtain ⟨here, mem, same⟩ := List.mem_map.mp mem
  obtain ⟨outer, inner, eq⟩ := List.append_of_mem mem
  exact ⟨outer, here, inner, eq, same⟩

variable {outer inner : List (Opening n)} {here : Opening n}

theorem opened_eq (h : underway.UpToDate imports earlier s)
    (split : underway.openings = outer ++ here :: inner) :
    underway.opened = outer.map (·.index) ++ here.index :: inner.map (·.index) := by
  rw [← h.listed, split, List.map_append, List.map_cons]

theorem idxOf?_opened (h : underway.UpToDate imports earlier s)
    (split : underway.openings = outer ++ here :: inner) :
    underway.opened.idxOf? here.index = some outer.length := by
  have nodup := h.opened_nodup
  rw [h.opened_eq split] at nodup ⊢
  -- nobody in front is the one that is looked for
  have fresh : (outer.map (·.index)).idxOf? here.index = none := by
    rw [List.idxOf?_eq_none_iff]
    intro mem
    exact (List.nodup_append.mp nodup).2.2 _ mem _ (List.mem_cons_self ..) rfl
  have first : (here.index :: inner.map (·.index)).idxOf? here.index = some 0 := by
    rw [List.idxOf?, List.findIdx?_cons, if_pos (beq_self_eq_true _)]
  rw [List.idxOf?, List.findIdx?_append, ← List.idxOf?, fresh, first]
  simp

/-- What stands behind a directive is what has been opened since and is in progress. -/
theorem mem_inner_iff (h : underway.UpToDate imports earlier s)
    (split : underway.openings = outer ++ here :: inner) (j : Fin n) :
    j ∈ inner.map (·.index) ↔
      s.statusOf j = .inProgress ∧ j ≠ here.index ∧ here.before.statusOf j = .pending := by
  have nodup := h.opened_nodup
  have pairs := h.later
  rw [h.opened_eq split, List.nodup_append, List.nodup_cons] at nodup
  rw [split, List.pairwise_append, List.pairwise_cons] at pairs
  constructor
  · intro mem
    have opened : j ∈ underway.opened := by
      rw [h.opened_eq split]
      simp [mem]
    refine ⟨(h.mem_opened j).mp opened, ?_, ?_⟩
    · rintro rfl
      exact nodup.2.1.1 mem
    · obtain ⟨o, behind, rfl⟩ := List.mem_map.mp mem
      exact (pairs.2.1.1 o behind).1
  · rintro ⟨inProgress, other, pending⟩
    have opened := (h.mem_opened j).mpr inProgress
    rw [h.opened_eq split] at opened
    rcases List.mem_append.mp opened with mem | mem
    · -- who stands in front was in progress already
      obtain ⟨o, inFront, rfl⟩ := List.mem_map.mp mem
      have before := (pairs.2.2 o inFront here (List.mem_cons_self ..)).2
      rw [before] at pending
      cases pending
    · exact (List.mem_cons.mp mem).resolve_left other

/-- A cycle that is met is read off the stack. -/
theorem leadsBack (h : underway.UpToDate imports earlier s)
    (inProgress : s.statusOf i = .inProgress) :
    ∃ outer here inner, LeadsBack imports underway i s outer here inner := by
  obtain ⟨outer, here, inner, split, rfl⟩ := h.exists_split inProgress
  have position := h.idxOf?_opened split
  refine ⟨outer, here, inner, split, rfl, position, h.mem_inner_iff split, fun log => ?_⟩
  have way : underway.opened.drop ((underway.opened.idxOf? here.index).getD 0) =
      here.index :: inner.map (·.index) := by
    rw [position, Option.getD_some, h.opened_eq split]
    exact List.drop_left' (List.length_map _)
  have names : (underway.opened.drop ((underway.opened.idxOf? here.index).getD 0) ++
      [here.index]).map (fun j => (imports.get j).boundName) =
      (imports.get here.index).boundName ::
        inner.map (fun o => (imports.get o.index).boundName) ++
        [(imports.get here.index).boundName] := by
    rw [way]
    simp
  rw [← names]
  rfl

end Underway.UpToDate

end NameResolution
