import NameResolution.Proofs.Calls
import NameResolution.Proofs.Resolution.Members
import NameResolution.Proofs.Tables.Mods

/-! # `self` and `super`, in paths and in imports

    A path in the text counts the words in front of it, while that of an import
    is followed word by word, with a note of where it stands. Both step over
    functions, impls and blocks, and over whatever else is no `mod`. So both use
    the words in the same way: they start from the same module, they fail above
    the root, and neither takes a word anywhere else. -/

namespace NameResolution

/-! ## The rule -/

/-- A word stands where only a name may: behind another segment, unless it is one of the `super`s
    in front, or anywhere in an absolute path. -/
def WordBehind (global : Bool) (segments : List Segment) : Prop :=
  ∃ lead word rest, segments = lead ++ word :: rest ∧ word.ident? = none ∧
    (global = true ∨ lead ≠ [] ∧ ∃ segment ∈ lead ++ [word], segment.kind ≠ .super)

/-- All the `super`s in front of some segments, and at least one. -/
structure Supers (supers rest : List Segment) : Prop where
  notNone : supers ≠ []
  all : ∀ segment ∈ supers, segment.kind = .super
  noMore : ∀ segment ∈ rest.head?, segment.kind ≠ .super

/-- What is no `super` stands behind a `super`. -/
theorem ordinary_of_cons {first : Segment} {segments : List Segment} (isSuper : first.kind = .super)
    (ordinary : ∃ segment ∈ first :: segments, segment.kind ≠ .super) :
    ∃ segment ∈ segments, segment.kind ≠ .super := by
  obtain ⟨segment, mem, notSuper⟩ := ordinary
  refine ⟨segment, (List.mem_cons.mp mem).resolve_left ?_, notSuper⟩
  rintro rfl
  exact notSuper isSuper

/-- Only the `super`s in front are taken away. -/
theorem mem_dropWhile_of_ordinary {lead more : List Segment} {word : Segment}
    (ordinary : ∃ segment ∈ lead ++ [word], segment.kind ≠ .super) :
    word ∈ (lead ++ word :: more).dropWhile (·.kind = .super) := by
  induction lead with
  | nil =>
    obtain ⟨_, mem, notSuper⟩ := ordinary
    cases List.mem_singleton.mp mem
    rw [List.nil_append, List.dropWhile_cons_of_neg (by simpa using notSuper)]
    exact List.mem_cons_self ..
  | cons first lead ih =>
    rw [List.cons_append]
    by_cases isSuper : first.kind = .super
    · rw [List.dropWhile_cons_of_pos (by simpa using isSuper)]
      exact ih (ordinary_of_cons isSuper ordinary)
    · rw [List.dropWhile_cons_of_neg (by simpa using isSuper)]
      simp

/-- What some way to follow segments makes of the words, with these `mod`s around: `onward` says
    of an outcome that the way has gone on from a module with the segments that are left, `above`
    that it has failed at a `super`, and `arrives` that it has come to something. -/
structure Climbs {β : Type} (mods : List ModuleId) (walk : Bool → List Segment → β)
    (onward : ModuleId → List Segment → β → Prop) (above : Segment → β → Prop)
    (arrives : β → Prop) : Prop where
  self : ∀ first rest, first.kind = .selfModule →
    ∃ module, mods[0]? = some module ∧ onward module rest (walk false (first :: rest))
  super : ∀ supers rest, Supers supers rest → supers.length < mods.length →
    ∃ module, mods[supers.length]? = some module ∧ onward module rest (walk false (supers ++ rest))
  above : ∀ supers rest, Supers supers rest → mods.length ≤ supers.length →
    ∃ word, supers[mods.length - 1]? = some word ∧ above word (walk false (supers ++ rest))
  word : ∀ global segments, WordBehind global segments → ¬ arrives (walk global segments)

/-- A definition and its module know each other. -/
def Owns (defs : Definitions) (tree : ModuleTree) (id : DefId) (module : ModuleId) : Prop :=
  defs.module? id = some module ∧ ∃ m, tree.find? module = some m ∧ m.owner = .definition id

/-- Each module has its place, and the definition that it belongs to has it recorded. -/
structure InPlace (defs : Definitions) (tree : ModuleTree) : Prop where
  intact : Intact defs tree
  shaped : tree.Shaped
  housed : Housed defs tree
  root : tree.ofMod defs .root = true

/-! ## From one `mod` to the next -/

namespace InPlace

variable {defs : Definitions} {tree : ModuleTree} {current : ModuleId} {others : List ModuleId}
  {m : Module}

theorem exists_mods (place : InPlace defs tree) {module : ModuleId} (known : tree.Known module) :
    ∃ first others, tree.mods defs module = first :: others ∧
      tree.enclosingMod defs module = .ok first ∧ tree.ofMod defs first = true ∧
        tree.mods defs first = first :: others := by
  obtain ⟨first, others, row⟩ := place.shaped.exists_mods place.root known
  obtain ⟨isMod, -, rowFirst⟩ := place.shaped.mods_first known row
  have encloses := ModuleTree.enclosingMod_of_mods place.intact known row
  exact ⟨first, others, row, encloses, isMod, rowFirst⟩

/-- Above the last `mod` there is nothing, and above any other there is the next one. -/
theorem above_or_next (place : InPlace defs tree) (isMod : tree.ofMod defs current = true)
    (row : tree.mods defs current = current :: others) (found : tree.find? current = some m) :
    (m.parent = none ∧ others = []) ∨
      ∃ parent next more, m.parent = some parent ∧ others = next :: more ∧
        tree.enclosingMod defs parent = .ok next ∧ tree.ofMod defs next = true ∧
          tree.mods defs next = next :: more := by
  have behind := place.shaped.mods_others row isMod found
  cases inside : m.parent with
  | none =>
    rw [inside] at behind
    exact .inl ⟨rfl, behind⟩
  | some parent =>
    rw [inside] at behind
    have known := place.intact.validTree.known_parent found inside
    obtain ⟨next, more, rowParent, enclosing, isMod', row'⟩ := place.exists_mods known
    exact .inr ⟨parent, next, more, rfl, behind.trans rowParent, enclosing, isMod', row'⟩

/-- Around the next `mod` there are the others. -/
theorem next_row (place : InPlace defs tree) {module next : ModuleId} {more : List ModuleId}
    (known : tree.Known module) (row : tree.mods defs module = current :: next :: more) :
    tree.Known next ∧ tree.mods defs next = next :: more := by
  obtain ⟨isMod, knownCurrent, rowCurrent⟩ := place.shaped.mods_first known row
  obtain ⟨m, found⟩ := knownCurrent.find?
  rcases place.above_or_next isMod rowCurrent found with ⟨-, ⟨⟩⟩ | ⟨parent, _, _, -, ⟨⟩, -, isMod',
    row'⟩
  obtain ⟨m', found', -⟩ := (ModuleTree.ofMod_eq_true_iff place.intact).mp isMod'
  exact ⟨ModuleTree.known_of_find? found', row'⟩

theorem exists_owner (place : InPlace defs tree) (isMod : tree.ofMod defs current = true) :
    ∃ m id, tree.find? current = some m ∧ m.owner = .definition id ∧ Owns defs tree id current := by
  obtain ⟨m, found, tested⟩ := (ModuleTree.ofMod_eq_true_iff place.intact).mp isMod
  unfold ModuleTree.isMod at tested
  split at tested
  · next id owner => exact ⟨m, id, found, owner, place.housed.module? found owner, m, found, owner⟩
  · cases tested

end InPlace

/-! ## Paths in the text -/

namespace Tables

variable {tables : Tables} {stack : ScopeStack} {ns : Namespace} {suffix : Option String}
  {current : ModuleId} {others : List ModuleId} {supers rest : List Segment}

theorem exists_modDefinition (place : InPlace tables.defs tables.tree)
    (isMod : tables.tree.ofMod tables.defs current = true) :
    ∃ id, tables.modDefinition current = .ok id ∧ Owns tables.defs tables.tree id current := by
  obtain ⟨m, id, found, owner, owns⟩ := place.exists_owner isMod
  refine ⟨id, ?_, owns⟩
  unfold modDefinition
  rw [ModuleTree.get_of_find? found]
  dsimp only [Bind.bind, Except.bind]
  rw [owner]
  rfl

/-- Without a `super` in front, a path stays where it is. -/
theorem climb_of_noSuper (noMore : ∀ segment ∈ rest.head?, segment.kind ≠ .super) {id : DefId}
    (isOwner : tables.modDefinition current = .ok id) :
    tables.climb current rest = pure (id, rest) := by
  cases rest with
  | nil =>
    unfold climb
    rw [isOwner]
    rfl
  | cons segment rest =>
    unfold climb
    rw [if_neg (noMore segment rfl), isOwner]
    rfl

/-- Each `super` leads to the next `mod`, as long as there is one. -/
theorem exists_climb (place : InPlace tables.defs tables.tree)
    (isMod : tables.tree.ofMod tables.defs current = true)
    (row : tables.tree.mods tables.defs current = current :: others)
    (all : ∀ segment ∈ supers, segment.kind = .super)
    (noMore : ∀ segment ∈ rest.head?, segment.kind ≠ .super)
    (enough : supers.length ≤ others.length) :
    ∃ module id, (current :: others)[supers.length]? = some module ∧
      Owns tables.defs tables.tree id module ∧
        tables.climb current (supers ++ rest) = pure (id, rest) := by
  induction supers generalizing current others with
  | nil =>
    obtain ⟨id, isOwner, owns⟩ := exists_modDefinition place isMod
    exact ⟨current, id, rfl, owns, climb_of_noSuper noMore isOwner⟩
  | cons word supers ih =>
    obtain ⟨isSuper, all'⟩ := List.forall_mem_cons.mp all
    obtain ⟨m, found, -⟩ := (ModuleTree.ofMod_eq_true_iff place.intact).mp isMod
    rw [List.cons_append]
    unfold climb
    rw [if_pos isSuper, ModuleTree.get_of_find? found, PathSearch.lift_ok, pure_bind]
    rcases place.above_or_next isMod row found with ⟨-, rfl⟩ | ⟨parent, next, more, inside, rfl,
      enclosing, isMod', row'⟩
    · cases enough
    · rw [inside]
      dsimp only
      rw [enclosing, PathSearch.lift_ok, pure_bind]
      exact ih isMod' row' all' (Nat.le_of_succ_le_succ enough)

/-- A `super` too many is an error there. -/
theorem climb_above (place : InPlace tables.defs tables.tree)
    (isMod : tables.tree.ofMod tables.defs current = true)
    (row : tables.tree.mods tables.defs current = current :: others)
    (all : ∀ segment ∈ supers, segment.kind = .super) (rest : List Segment)
    (tooMany : others.length < supers.length) :
    ∃ word, supers[others.length]? = some word ∧
      tables.climb current (supers ++ rest) = throw (.unresolvedName "super" .type word.span []
        (some "there are no modules above the root")) := by
  induction supers generalizing current others with
  | nil => cases tooMany
  | cons word supers ih =>
    obtain ⟨isSuper, all'⟩ := List.forall_mem_cons.mp all
    obtain ⟨m, found, -⟩ := (ModuleTree.ofMod_eq_true_iff place.intact).mp isMod
    rw [List.cons_append]
    unfold climb
    rw [if_pos isSuper, ModuleTree.get_of_find? found, PathSearch.lift_ok, pure_bind]
    rcases place.above_or_next isMod row found with ⟨noParent, rfl⟩ | ⟨parent, next, more, inside,
      rfl, enclosing, isMod', row'⟩
    · rw [noParent]
      exact ⟨word, rfl, rfl⟩
    · rw [inside]
      dsimp only
      rw [enclosing, PathSearch.lift_ok, pure_bind]
      exact ih isMod' row' all' (Nat.lt_of_succ_lt_succ tooMany)

/-- Where a word stands behind the first segments, it is among those that are left. -/
theorem gives_resolveFirst_left {first word : Segment} {rest : List Segment} (behind : word ∈ rest)
    (left : first.kind = .super → word ∈ (first :: rest).dropWhile (·.kind = .super)) :
    Gives (tables.resolveFirst stack ns suffix first rest) fun start => match start with
      | .inl r => ∀ id, r ≠ .definition id
      | .inr (_, left) => word ∈ left := by
  unfold resolveFirst
  split
  · split
    · exact .pure behind
    · exact .throw _ _
  · exact .bind (.trivial _) fun _ _ => .bind (.trivial _) fun _ _ => .pure behind
  · next isSuper =>
    refine .bind (.trivial _) fun module _ => .bind (gives_climb_left module _) ?_
    rintro ⟨id, _⟩ rfl
    exact .pure (left isSuper)
  · refine .bind (.trivial _) fun found _ => ?_
    split
    · exact .pure (by rintro _ ⟨⟩)
    · exact .bind (.trivial _) fun _ _ => .bind (.trivial _) fun _ _ => .pure behind
    · -- only a path of one segment may be a variant without its enum
      have notAlone : rest.isEmpty = false := by
        cases rest with
        | nil => cases behind
        | cons _ _ => rfl
      rw [notAlone, Bool.false_and, if_neg Bool.false_ne_true, pure_bind]
      exact .bind (.trivial _) fun _ _ => .throw _ _

/-- Where a word stands behind, a path comes to no definition. -/
theorem gives_resolvePath_of_wordBehind {labels : NodeId → String → Prop}
    (sound : Sound labels (tables.defs, tables.tree)) {path : Path}
    (behind : WordBehind path.global path.segments) :
    Gives (tables.resolvePath stack ns path suffix) fun r => ∀ id, r ≠ .definition id := by
  obtain ⟨lead, word, more, split', isWord, place⟩ := behind
  -- once the word is among the segments to follow, it will come up and not be taken
  have follows {segments : List Segment} (mem : word ∈ segments) (id : DefId) :
      Gives (tables.followMembers stack.nearestModule ns suffix id segments) fun r =>
        ∀ id, r ≠ .definition id := by
    refine (gives_followMembers sound segments id).mono fun r ends final eq => ?_
    rcases ends final eq with ⟨rfl, -⟩ | ⟨-, names, -⟩
    · cases mem
    · have name := names word mem
      rw [isWord] at name
      cases name
  have mem : word ∈ path.segments := by simp [split']
  unfold resolvePath
  split
  · intro warnings
    trivial
  · next first rest segments =>
    rw [segments] at mem
    split
    · exact follows mem .root
    · next relative =>
      obtain ⟨notEmpty, ordinary⟩ := place.resolve_left relative
      obtain ⟨_, lead, rfl⟩ := List.exists_cons_of_ne_nil notEmpty
      obtain ⟨rfl, rfl⟩ := List.cons.inj (segments.symm.trans split')
      have further : word ∈ lead ++ word :: more := by simp
      refine .bind (gives_resolveFirst_left further fun _ => ?_) ?_
      · exact mem_dropWhile_of_ordinary ordinary
      · rintro (r | ⟨id, left⟩) holds
        · exact .pure holds
        · exact follows holds id

/-- What a path makes of the words. -/
theorem climbs_resolvePath {labels : NodeId → String → Prop}
    (sound : Sound labels (tables.defs, tables.tree)) (place : InPlace tables.defs tables.tree)
    (known : tables.tree.Known stack.nearestModule) (ns : Namespace) (suffix : Option String)
    (path : Path) :
    Climbs (tables.tree.mods tables.defs stack.nearestModule)
      (fun global segments => tables.resolvePath stack ns { path with global, segments } suffix)
      (fun module rest search => ∃ id, Owns tables.defs tables.tree id module ∧
        search = tables.followMembers stack.nearestModule ns suffix id rest)
      (fun word search => search = throw (.unresolvedName "super" .type word.span []
        (some "there are no modules above the root")))
      (fun search => ∃ warnings id warnings',
        search.run.run warnings = .ok (.ok (.definition id), warnings')) := by
  obtain ⟨current, others, row, enclosing, isMod, row'⟩ := place.exists_mods known
  rw [row]
  -- the first `super` starts from the `mod` around the module, as the others do from theirs
  have behindSupers {supers rest : List Segment} (isSupers : Supers supers rest) :
      tables.resolvePath stack ns { path with global := false, segments := supers ++ rest } suffix =
        tables.climb current (supers ++ rest) >>= fun p =>
          tables.followMembers stack.nearestModule ns suffix p.1 p.2 := by
    obtain ⟨first, supers, rfl⟩ := List.exists_cons_of_ne_nil isSupers.notNone
    have isSuper : first.kind = .super := isSupers.all first (List.mem_cons_self ..)
    unfold resolvePath
    rw [List.cons_append]
    dsimp only
    rw [if_neg Bool.false_ne_true]
    unfold resolveFirst
    rw [isSuper]
    dsimp only
    rw [enclosing, PathSearch.lift_ok, pure_bind]
    simp only [bind_assoc, pure_bind]
  refine ⟨fun first rest isSelf => ?_, fun supers rest isSupers enough => ?_,
    fun supers rest isSupers tooMany => ?_, fun global segments behind => ?_⟩
  · obtain ⟨id, isOwner, owns⟩ := exists_modDefinition place isMod
    refine ⟨current, rfl, id, owns, ?_⟩
    unfold resolvePath
    dsimp only
    rw [if_neg Bool.false_ne_true]
    unfold resolveFirst
    rw [isSelf]
    dsimp only
    rw [enclosing, PathSearch.lift_ok, pure_bind, isOwner, PathSearch.lift_ok, pure_bind, pure_bind]
  · obtain ⟨module, id, there, owns, climbs⟩ := exists_climb place isMod row' isSupers.all
      isSupers.noMore (Nat.le_of_lt_succ enough)
    refine ⟨module, there, id, owns, ?_⟩
    rw [behindSupers isSupers, climbs, pure_bind]
  · obtain ⟨word, there, fails⟩ := climb_above place isMod row' isSupers.all rest tooMany
    refine ⟨word, there, ?_⟩
    rw [behindSupers isSupers, fails]
    rfl
  · rintro ⟨warnings, id, warnings', run⟩
    have gives : Gives (tables.resolvePath stack ns { path with global, segments } suffix) fun r =>
        ∀ id, r ≠ .definition id := gives_resolvePath_of_wordBehind sound behind
    exact Yields.true_iff.mp (gives warnings) _ run _ rfl _ rfl

end Tables

/-! ## Paths of imports -/

namespace Lookup

open Attempt (Reads)

variable {n : Nat} {lookup : Lookup n} {asker : Asker n} {s : ImportState n}
  {position : PathPosition} {module current first : ModuleId} {others : List ModuleId}
  {supers rest : List Segment}

/-- What only reads the state does not show in what follows. -/
theorem run_bind_of_reads {α β : Type} {m : Attempt n α} {f : α → Attempt n β} {a : α}
    (reads : Reads m s (.ok a)) (log : Log) :
    (m >>= f).run s log = (f a).run s log :=
  Logged.bind_of_ok (reads log)

theorem enclosingMod_reads (enclosing : s.tree.enclosingMod s.defs module = .ok current) :
    Reads (enclosingMod module : Attempt n ModuleId) s (.ok current) :=
  Reads.get.bind (.lift enclosing)

/-- The next `mod` is found where there is one. -/
theorem outerMod_reads (place : InPlace s.defs s.tree) (known : s.tree.Known module)
    (row : s.tree.mods s.defs module = current :: others) :
    Reads (outerMod module : Attempt n ModuleId) s
      (others.head?.elim (.error .aboveRoot) .ok) := by
  obtain ⟨_, _, row', enclosing, isMod, rowCurrent⟩ := place.exists_mods known
  cases row.symm.trans row'
  obtain ⟨m, found, -⟩ := (ModuleTree.ofMod_eq_true_iff place.intact).mp isMod
  refine (enclosingMod_reads enclosing).bind (Reads.get.bind ?_)
  refine (Reads.lift (ModuleTree.get_of_find? found)).bind ?_
  rcases place.above_or_next isMod rowCurrent found with ⟨noParent, rfl⟩ | ⟨parent, next, more,
    inside, rfl, enclosing', -, -⟩
  · rw [noParent]
    exact .throw _
  · rw [inside]
    exact enclosingMod_reads enclosing'

/-- Behind a `super`, only another one is taken differently than inside a module. -/
theorem followModules_climbing (noMore : ∀ segment ∈ rest.head?, segment.kind ≠ .super) :
    followModules lookup asker .climbing module rest =
      followModules lookup asker .inside module rest := by
  cases rest with
  | nil =>
    unfold followModules
    rfl
  | cons segment rest =>
    unfold followModules
    cases kind : segment.kind with
    | super => exact absurd kind (noMore segment rfl)
    | _ => rfl

/-- Each `super` leads to the next `mod`, as long as there is one. -/
theorem run_followModules_supers (place : InPlace s.defs s.tree) (known : s.tree.Known module)
    (row : s.tree.mods s.defs module = current :: others)
    (climbing : position = .start ∨ position = .climbing) (isSupers : Supers supers rest)
    (lookup : Lookup n) (asker : Asker n) (log : Log) :
    (followModules lookup asker position module (supers ++ rest)).run s log =
      (others[supers.length - 1]?).elim (.ok (.error .aboveRoot, s) log) fun final =>
        (followModules lookup asker .inside final rest).run s log := by
  obtain ⟨notNone, all, noMore⟩ := isSupers
  -- with each `super` the module is the next one of the row, and so are the `mod`s around it
  induction supers generalizing position module current others with
  | nil => exact absurd rfl notNone
  | cons word supers ih =>
    obtain ⟨isSuper, all'⟩ := List.forall_mem_cons.mp all
    have step : followModules lookup asker position module (word :: supers ++ rest) =
        outerMod module >>= fun next =>
          followModules lookup asker .climbing next (supers ++ rest) := by
      rw [List.cons_append]
      conv_lhs => unfold followModules
      rw [isSuper]
      rcases climbing with rfl | rfl <;> rfl
    have reads := outerMod_reads place known row
    rw [step]
    cases others with
    | nil => exact reads.bind_error log
    | cons next more =>
      obtain ⟨knownNext, rowNext⟩ := place.next_row known row
      rw [run_bind_of_reads reads]
      cases supers with
      | nil => rw [List.nil_append, followModules_climbing noMore]; rfl
      | cons word' supers => exact ih knownNext rowNext (.inr rfl) (List.cons_ne_nil _ _) all'

/-- A path from which no module comes, whatever the state. -/
def LeadsNowhere (m : Attempt n ModuleId) : Prop :=
  ∀ s log, Tries True m s log fun r _ _ => ∀ module, r ≠ .ok module

theorem leadsNowhere_throw (failure : ImportFailure) :
    LeadsNowhere (throw failure : Attempt n ModuleId) := by
  rintro s log module ⟨⟩

theorem leadsNowhere_bind {α : Type} {m : Attempt n α} {f : α → Attempt n ModuleId}
    (h : ∀ a, LeadsNowhere (f a)) : LeadsNowhere (m >>= f) := by
  intro s log
  rw [Tries.bind_iff]
  refine Run.true_iff.mpr fun r s' log' _ => ?_
  cases r with
  | ok a => exact h a s' log'
  | error failure => rintro module ⟨⟩

/-- Inside a module no word is taken. -/
theorem leadsNowhere_inside {word : Segment} (isWord : word.ident? = none) {segments : List Segment}
    (mem : word ∈ segments) (module : ModuleId) :
    LeadsNowhere (followModules lookup asker .inside module segments) := by
  induction segments generalizing module with
  | nil => cases mem
  | cons segment segments ih =>
    unfold followModules
    cases kind : segment.kind with
    | name name =>
      have further : word ∈ segments := by
        refine (List.mem_cons.mp mem).resolve_left ?_
        rintro rfl
        simp [Segment.ident?, kind] at isWord
      exact leadsNowhere_bind fun _ => leadsNowhere_bind fun _ => ih further _
    | super | selfModule | selfType => exact leadsNowhere_throw _

/-- Behind `super` only another one is taken. -/
theorem leadsNowhere_climbing {lead more : List Segment} {word : Segment}
    (isWord : word.ident? = none) (ordinary : ∃ segment ∈ lead ++ [word], segment.kind ≠ .super)
    (module : ModuleId) :
    LeadsNowhere (followModules lookup asker .climbing module (lead ++ word :: more)) := by
  induction lead generalizing module with
  | nil =>
    obtain ⟨_, mem, notSuper⟩ := ordinary
    cases List.mem_singleton.mp mem
    rw [List.nil_append, followModules_climbing]
    · exact leadsNowhere_inside isWord (List.mem_cons_self ..) module
    · rintro _ ⟨⟩
      exact notSuper
  | cons first lead ih =>
    by_cases isSuper : first.kind = .super
    · rw [List.cons_append]
      unfold followModules
      rw [isSuper]
      exact leadsNowhere_bind fun outer => ih (ordinary_of_cons isSuper ordinary) outer
    · rw [followModules_climbing]
      · exact leadsNowhere_inside isWord (by simp) module
      · rintro _ ⟨⟩
        exact isSuper

/-- Where a word stands behind, an import comes to no module. -/
theorem leadsNowhere_modulePath {global : Bool} {segments : List Segment}
    (behind : WordBehind global segments) (home : ModuleId) :
    LeadsNowhere (modulePath lookup asker home global segments) := by
  obtain ⟨lead, word, more, rfl, isWord, place⟩ := behind
  unfold modulePath
  split
  · exact leadsNowhere_inside isWord (by simp) _
  · next relative =>
    obtain ⟨notEmpty, ordinary⟩ := place.resolve_left relative
    obtain ⟨first, lead, rfl⟩ := List.exists_cons_of_ne_nil notEmpty
    have further : word ∈ lead ++ word :: more := by simp
    rw [List.cons_append]
    unfold followModules
    cases kind : first.kind with
    | name name =>
      exact leadsNowhere_bind fun _ => leadsNowhere_bind fun _ =>
        leadsNowhere_inside isWord further _
    | super =>
      exact leadsNowhere_bind fun outer =>
        leadsNowhere_climbing isWord (ordinary_of_cons kind ordinary) outer
    | selfModule => exact leadsNowhere_bind fun _ => leadsNowhere_inside isWord further _
    | selfType => exact leadsNowhere_throw _

/-- What the path of an import makes of the words. -/
theorem climbs_modulePath (place : InPlace s.defs s.tree) (known : s.tree.Known module)
    (lookup : Lookup n) (asker : Asker n) (log : Log) :
    Climbs (s.tree.mods s.defs module)
      (fun global segments => (modulePath lookup asker module global segments).run s log)
      (fun final rest outcome =>
        outcome = (followModules lookup asker .inside final rest).run s log)
      (fun _ outcome => outcome = .ok (.error .aboveRoot, s) log)
      (fun outcome => ∃ final s' log', outcome = .ok (.ok final, s') log') := by
  obtain ⟨current, others, row, enclosing, -, -⟩ := place.exists_mods known
  rw [row]
  refine ⟨fun first rest isSelf => ⟨current, rfl, ?_⟩, fun supers rest isSupers enough => ?_,
    fun supers rest isSupers tooMany => ?_, fun global segments behind => ?_⟩
  · have step : modulePath lookup asker module false (first :: rest) =
        enclosingMod module >>= fun mod => followModules lookup asker .inside mod rest := by
      unfold modulePath
      conv_lhs => unfold followModules
      rw [isSelf]
      rfl
    rw [step]
    exact run_bind_of_reads (enclosingMod_reads enclosing) log
  · have runs :=
      run_followModules_supers place known row (.inl rfl) isSupers lookup asker log
    obtain ⟨word, supers, rfl⟩ := List.exists_cons_of_ne_nil isSupers.notNone
    have inRow : supers.length < others.length := Nat.lt_of_succ_lt_succ enough
    have there : others[supers.length]? = some others[supers.length] :=
      List.getElem?_eq_getElem inRow
    rw [List.length_cons, Nat.add_sub_cancel, there] at runs
    exact ⟨others[supers.length], there, runs⟩
  · have runs :=
      run_followModules_supers place known row (.inl rfl) isSupers lookup asker log
    have beyond : others.length ≤ supers.length - 1 := Nat.le_sub_of_add_le tooMany
    rw [List.getElem?_eq_none beyond] at runs
    have inWords : others.length < supers.length := tooMany
    exact ⟨supers[others.length], List.getElem?_eq_getElem inWords, runs⟩
  · rintro ⟨final, s', log', run⟩
    exact Run.of_ok (leadsNowhere_modulePath behind module s log) run final rfl

end Lookup

/-! ## After the build -/

namespace Session

open Importing

/-- The import phase makes definitions and binds names, and so moves no module. -/
theorem inPlace_of_later {n : Nat} {labels : NodeId → String → Prop} {s s' : ImportState n}
    (later : Later labels s s') (place : InPlace s.defs s.tree) : InPlace s'.defs s'.tree where
  intact := later.sound.intact
  shaped := later.passes.shaped place.shaped
  housed := place.housed.grows later.defs.modules later.tree
  root := by
    have known := place.intact.validTree.known_root
    rw [ModuleTree.ofMod_grows place.intact later.tree later.defs_keeps known]
    exact place.root

/-- What the first pass has made of a program, before the first import is opened. -/
theorem inPlace_of_declareProgram {program : Program} {declared : DeclareState}
    {log log' : Log}
    (run : declareProgram .empty .new program log = .ok declared log') :
    InPlace declared.defs declared.tree := by
  obtain ⟨passes, inOrder⟩ := declareProgram_passes run
  have intact : Intact declared.defs declared.tree := inOrder.sound.intact
  refine ⟨intact, passes.shaped .new, declareProgram_housed run, ?_⟩
  obtain ⟨m, found, owner, -⟩ := intact.validTree.root
  unfold ModuleTree.ofMod
  rw [found, Option.bind_some, owner]
  show (declared.defs.find? .root).any (·.kind == .mod) = true
  rw [find?_root_of_declareProgram run]
  rfl

/-- Paths in the text and paths of imports make the same of `self` and `super`. From a module of a
    built tree, both start from the `mod`s around it, at any point of the second pass and at any
    time in the import phase, whatever else is looked up on the way. -/
theorem words_climb_alike {config : Config} {program : Program} {log log' : Log}
    {reported : List Diagnostic} {built : Session}
    (run : (new config).build program log = .ok (reported, built) log') :
    ∃ declared log₁,
      declareProgram .empty .new program (log.push .buildStarted) = .ok declared log₁ ∧
      let imports := Imports.ofList declared.directives config.lintPrivateAccess
      let start := ImportState.start declared.directives.length declared.defs declared.tree
      (∃ imported, Steps imports [] start imported ∧
        imported.defs = built.defs ∧ imported.tree = built.tree) ∧
      ∀ module, built.tree.Known module →
        (∀ (stack : ScopeStack) (ns : Namespace) (suffix : Option String) (path : Path),
          stack.nearestModule = module →
            Climbs (built.tree.mods built.defs module)
              (fun global segments =>
                built.tables.resolvePath stack ns { path with global, segments } suffix)
              (fun next rest search => ∃ id, Owns built.defs built.tree id next ∧
                search = built.tables.followMembers module ns suffix id rest)
              (fun word search => search = throw (.unresolvedName "super" .type word.span []
                (some "there are no modules above the root")))
              (fun search => ∃ warnings id warnings',
                search.run.run warnings = .ok (.ok (.definition id), warnings'))) ∧
        ∀ s, Steps imports [] start s → ∀ lookup asker log₂,
          Climbs (built.tree.mods built.defs module)
            (fun global segments =>
              (Lookup.modulePath lookup asker module global segments).run s log₂)
            (fun next rest outcome =>
              outcome = (Lookup.followModules lookup asker .inside next rest).run s log₂)
            (fun _ outcome => outcome = .ok (.error .aboveRoot, s) log₂)
            (fun outcome => ∃ next s' log₃, outcome = .ok (.ok next, s') log₃) := by
  obtain ⟨sound, -⟩ := sound_of_build run
  obtain ⟨declared, log₁, first, start, imported, toEnd, defs, tree⟩ := steps_of_build run
  have place : InPlace declared.defs declared.tree := inPlace_of_declareProgram first
  have whole := start.path toEnd
  refine ⟨declared, log₁, first, ⟨imported, toEnd, defs.symm, tree.symm⟩, ?_⟩
  intro module known
  constructor
  · rintro stack ns suffix path rfl
    have placeBuilt : InPlace built.tables.defs built.tables.tree := by
      show InPlace built.defs built.tree
      rw [defs, tree]
      exact inPlace_of_later whole place
    have soundBuilt : Sound program.DeclaresFunc (built.tables.defs, built.tables.tree) := sound
    exact Tables.climbs_resolvePath soundBuilt placeBuilt known ns suffix path
  · intro s steps lookup asker log₃
    have soFar := start.path steps
    -- the row of `mod`s is the one that was there in the beginning
    have sameRow : built.tree.mods built.defs module = s.tree.mods s.defs module := by
      rw [defs, tree, whole.tree.mods place.intact whole.defs_keeps,
        soFar.tree.mods place.intact soFar.defs_keeps]
    have knownThen : s.tree.Known module := by
      rw [tree] at known
      exact soFar.tree.known_iff.mpr (whole.tree.known_iff.mp known)
    rw [sameRow]
    exact Lookup.climbs_modulePath (inPlace_of_later soFar place) knownThen lookup asker log₃

/-- A block inside a function, in a `mod` inside another one:

        mod a { mod b { func f() { use super::b; } } } -/
def deep : Program :=
  ⟨⟨0⟩, ⟨0, 60⟩,
    [.mod ⟨⟨1⟩, true, ⟨1, 1⟩⟩ ⟨"a", ⟨1, 1⟩⟩
      [.mod ⟨⟨2⟩, true, ⟨2, 1⟩⟩ ⟨"b", ⟨2, 1⟩⟩
        [.func ⟨⟨3⟩, true, ⟨3, 1⟩⟩ .func ⟨"f", ⟨3, 1⟩⟩ [] [] none
          (some (.block .plain (.mk ⟨4⟩ [.item (.useDecl ⟨⟨5⟩, false, ⟨5, 1⟩⟩
            (.path ⟨6⟩ ⟨6, 1⟩ ⟨false, [⟨.super, ⟨6, 1⟩⟩, ⟨.name "b", ⟨6, 1⟩⟩]⟩ none))])))]]]⟩

/-- From the block, one `super` leads to the outer `mod`, in the path of the import as well, two
    lead to the root, and a third one is too many. -/
theorem words_climb_alike_of_deep :
    ∃ reported built log', (new {}).build deep .empty = .ok (reported, built) log' ∧
      (∀ stack : ScopeStack, stack.nearestModule = ⟨4⟩ → ∀ word : Segment, word.kind = .super →
        ∀ rest : List Segment, rest = [⟨.name "a", ⟨9, 1⟩⟩] →
          (∃ id, Owns built.defs built.tree id .root ∧
            built.tables.resolvePath stack .type ⟨⟨7⟩, false, [word, word] ++ rest, false⟩ none =
              built.tables.followMembers ⟨4⟩ .type none id rest) ∧
          built.tables.resolvePath stack .type ⟨⟨7⟩, false, [word, word, word] ++ rest, false⟩
            none = throw (.unresolvedName "super" .type word.span []
              (some "there are no modules above the root"))) ∧
      ∃ declared log₁,
        declareProgram .empty .new deep (.push .empty .buildStarted) = .ok declared log₁ ∧
        ∀ lookup asker log₂, (Lookup.modulePath lookup asker ⟨4⟩ false [⟨.super, ⟨6, 1⟩⟩]).run
          (.start declared.directives.length declared.defs declared.tree) log₂ =
            .ok (.ok ⟨1⟩, .start declared.directives.length declared.defs declared.tree) log₂ := by
  have checked : ∃ r log', (new {}).build deep .empty = .ok r log' ∧
      (decide (4 < r.2.tree.size)
        && r.2.tree.mods r.2.defs ⟨4⟩ == [⟨2⟩, ⟨1⟩, ⟨0⟩]) = true :=
    Logged.exists_of_check (by decide +kernel)
  obtain ⟨⟨reported, built⟩, log', run, same⟩ := checked
  simp only [Bool.and_eq_true, beq_iff_eq, decide_eq_true_eq] at same
  obtain ⟨known, row⟩ := same
  obtain ⟨declared, log₁, first, -, climbs⟩ := words_climb_alike run
  obtain ⟨paths, imports⟩ := climbs ⟨4⟩ known
  rw [row] at paths imports
  refine ⟨reported, built, log', run, fun stack nearest word isSuper rest isRest => ?_,
    declared, log₁, first, fun lookup asker log₂ => ?_⟩
  · subst isRest
    have supers (words : List Segment) (notNone : words ≠ []) (same : ∀ w ∈ words, w = word) :
        Supers words [⟨.name "a", ⟨9, 1⟩⟩] :=
      ⟨notNone, fun segment mem => same segment mem ▸ isSuper, by rintro _ ⟨⟩; simp⟩
    have path := paths stack .type none ⟨⟨7⟩, false, [], false⟩ nearest
    obtain ⟨module, isRoot, id, owns, eq⟩ :=
      path.super [word, word] _ (supers _ (by simp) (by simp)) (by simp)
    obtain ⟨_, isWord, fails⟩ :=
      path.above [word, word, word] _ (supers _ (by simp) (by simp)) (by simp)
    cases isRoot
    cases isWord
    exact ⟨⟨id, owns, eq⟩, fails⟩
  · obtain ⟨module, isOuter, eq⟩ := (imports _ (.refl _) lookup asker log₂).super
      [⟨.super, ⟨6, 1⟩⟩] [] ⟨by simp, by simp, by simp⟩ (by decide)
    cases isOuter
    refine eq.trans ?_
    unfold Lookup.followModules
    rfl

end Session

end NameResolution
