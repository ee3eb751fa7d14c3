import NameResolution.Proofs.Import.Outcome
import NameResolution.Proofs.Import.Completion
import Mathlib.Data.List.ProdSigma

/-! # Rounds of globs

    Globs only bind names that are bound somewhere already, and a round that
    tells of a change has bound one where it was free. So there are no more such
    rounds than places for those names, and the globs come to rest. -/

namespace NameResolution

/-! ## Places -/

namespace ModuleTree

/-- All names that are bound somewhere. -/
def boundNames (tree : ModuleTree) : List String :=
  (tree.toList.flatMap fun m => Namespace.all.flatMap m.bindings).map (·.1)

/-- Only some names are bound. -/
structure Named (names : List String) (tree : ModuleTree) : Prop where
  mem : ∀ {id : ModuleId} {ns : Namespace} {name : String} {binding : Binding},
    tree.bindingAt? id ns name = some binding → name ∈ names

/-- Where some names may be bound. -/
def places (names : List String) (tree : ModuleTree) : List (ModuleId × Namespace × String) :=
  (List.range tree.size).map ModuleId.mk ×ˢ (Namespace.all ×ˢ names)

/-- Where they are not bound yet. -/
def freePlaces (names : List String) (tree : ModuleTree) :
    List (ModuleId × Namespace × String) :=
  (tree.places names).filter fun place => (tree.bindingAt? place.1 place.2.1 place.2.2).isNone

variable {names : List String} {tree tree' tree'' : ModuleTree}

theorem named_boundNames (tree : ModuleTree) : tree.Named tree.boundNames := by
  constructor
  intro id ns name binding bound
  obtain ⟨m, found, held⟩ := Option.bind_eq_some_iff.mp bound
  refine List.mem_map.mpr ⟨(name, binding), List.mem_flatMap.mpr ⟨m, ?_, ?_⟩, rfl⟩
  · exact Array.mem_toList_iff.mpr (Array.mem_of_getElem? found)
  · refine List.mem_flatMap.mpr ⟨ns, Namespace.mem_all ns, ?_⟩
    exact Std.TreeMap.mem_toList_iff_getElem?_eq_some.mpr held

theorem length_freePlaces_lt (tree : ModuleTree) :
    (tree.freePlaces tree.boundNames).length < Importing.roundBound tree := by
  have bound : (tree.freePlaces tree.boundNames).length ≤
      (tree.places tree.boundNames).length := List.length_filter_le _ _
  have all : (tree.places tree.boundNames).length =
      tree.size * (3 * Importing.boundNames tree) := by
    rw [places, List.length_product, List.length_product, List.length_map, List.length_range,
      boundNames, List.length_map]
    rfl
  rw [all] at bound
  have : 3 * tree.size * Importing.boundNames tree =
      tree.size * (3 * Importing.boundNames tree) := by rw [Nat.mul_comm 3, Nat.mul_assoc]
  unfold Importing.roundBound
  omega

theorem mem_freePlaces {id : ModuleId} {ns : Namespace} {name : String} :
    (id, ns, name) ∈ tree.freePlaces names ↔
      tree.Known id ∧ name ∈ names ∧ tree.bindingAt? id ns name = none := by
  cases id
  simp [freePlaces, places, Known, and_assoc]

/-- What some globs have done to the names, and whether they tell of a change. -/
structure Fills (names : List String) (changed : Bool) (tree tree' : ModuleTree) : Prop where
  size : tree'.size = tree.size
  keeps : tree.Keeps tree'
  named : tree.Named names → tree'.Named names
  place : changed = true → ∃ place ∈ tree.freePlaces names, place ∉ tree'.freePlaces names

namespace Fills

theorem refl (names : List String) (tree : ModuleTree) : Fills names false tree tree :=
  ⟨rfl, .refl tree, fun named => named, by simp⟩

/-- Who is free later was free before. -/
theorem freePlaces_subset {changed : Bool} (h : Fills names changed tree tree')
    {place : ModuleId × Namespace × String} (mem : place ∈ tree'.freePlaces names) :
    place ∈ tree.freePlaces names := by
  obtain ⟨id, ns, name⟩ := place
  obtain ⟨known, mem, isFree⟩ := mem_freePlaces.mp mem
  unfold Known at known
  rw [h.size] at known
  exact mem_freePlaces.mpr ⟨known, mem, h.keeps.free isFree⟩

theorem trans {changed changed' : Bool} (h : Fills names changed tree tree')
    (h' : Fills names changed' tree' tree'') : Fills names (changed || changed') tree tree'' := by
  refine ⟨h'.size.trans h.size, h.keeps.trans h'.keeps, fun named => h'.named (h.named named), ?_⟩
  intro either
  rcases (Bool.or_eq_true _ _).mp either with first | later
  · obtain ⟨place, mem, filled⟩ := h.place first
    exact ⟨place, mem, fun stillFree => filled (h'.freePlaces_subset stillFree)⟩
  · obtain ⟨place, mem, filled⟩ := h'.place later
    exact ⟨place, h.freePlaces_subset mem, filled⟩

/-- A name is bound where it was free. -/
theorem of_bind {id : ModuleId} (known : tree.Known id) {ns : Namespace} {name : String}
    (mem : name ∈ names) (isFree : tree.bindingAt? id ns name = none) (binding : Binding) :
    Fills names true tree (tree.modify id (·.bind ns name binding)) := by
  refine ⟨size_modify .., keeps_bind isFree, fun named => ⟨fun {other ns' name' _} bound => ?_⟩,
    fun _ => ⟨(id, ns, name), mem_freePlaces.mpr ⟨known, mem, isFree⟩, fun stillFree => ?_⟩⟩
  · rcases bound_or_of_bind bound with ⟨same, -⟩ | before
    · cases same
      exact mem
    · exact named.mem before
  · have bound := (mem_freePlaces.mp stillFree).2.2
    rw [bindingAt?_bind_self known] at bound
    cases bound

/-- A change takes one of the free places. -/
theorem length_freePlaces {changed : Bool} (h : Fills names changed tree tree') :
    (tree'.freePlaces names).length + (if changed then 1 else 0) ≤
      (tree.freePlaces names).length := by
  -- what is free later is what is free before and after
  have eq : tree'.freePlaces names = (tree.freePlaces names).filter fun place =>
      (tree'.bindingAt? place.1 place.2.1 place.2.2).isNone := by
    unfold freePlaces places
    rw [List.filter_filter, h.size]
    refine List.filter_congr fun place mem => ?_
    cases isFree : tree'.bindingAt? place.1 place.2.1 place.2.2 with
    | none => simp [h.keeps.free isFree]
    | some _ => simp
  cases changed with
  | false =>
    rw [eq]
    exact List.length_filter_le _ _
  | true =>
    obtain ⟨place, mem, filled⟩ := h.place rfl
    rw [eq] at filled ⊢
    refine List.length_filter_lt_length_iff_exists.mpr ⟨place, mem, fun isFree => ?_⟩
    exact filled (List.mem_filter.mpr ⟨mem, isFree⟩)

end Fills

end ModuleTree

/-! ## One round -/

variable {n : Nat} {imports : Imports n} {s s' : ImportState n} {log : Log}
  {names : List String}

namespace Lookup

open Importing

/-- A glob that tells of a change has bound its name. Functions are only found among values, so
    they are bound in the namespace that was found free. -/
theorem globBind_fills {i : Fin n} {source : ModuleId} {ns : Namespace} {name : String}
    (mem : name ∈ names) {binding : Binding} (good : binding.Good s.defs ns) :
    Run True (globBind imports i source ns name binding) s log fun changed s' _ =>
      ModuleTree.Fills names changed s.tree s'.tree := by
  simp only [globBind, Importing.lift, Run.bind_iff, Run.get_iff, Run.lift_iff]
  apply Yields.true_iff.mpr
  intro m got
  have found := ModuleTree.find?_of_get got
  have known := ModuleTree.known_of_find? found
  split
  · exact .refl ..
  · next fits =>
    simp only [Bool.or_eq_true, Bool.and_eq_true, beq_iff_eq, not_or, not_and,
      Module.has_eq_isSome_find?] at fits
    obtain ⟨notBound, takes⟩ := fits
    have isFree : s.tree.bindingAt? (imports.get i).module ns name = none := by
      rw [ModuleTree.bindingAt?_of_find? found]
      simpa using notBound
    simp only [Run.bind_iff, Run.lift_iff]
    refine Yields.trivial_of_true fun inside => Yields.trivial_of_true fun isPub => ?_
    split
    · simp only [Run.bind_iff, Run.pure_iff]
      apply run_bindImport_outcome.mono
      intro _ s₁ log₁ outcome
      cases outcome with
      | refused found' lifetime block =>
        rw [found] at found'
        cases found'
        exact absurd block (takes lifetime)
      | aliased _ _ _ _ free => exact .of_bind known mem isFree _
      | aliasTaken _ _ taken _ =>
        rw [isFree] at taken
        cases taken
      | joined bound _ _ =>
        rw [good.2] at isFree
        rw [isFree] at bound
        cases bound
      | blocked taken _ _ =>
        rw [good.2] at isFree
        rw [isFree] at taken
        cases taken
      | opened free _ => exact .of_bind known mem free _
    · exact .refl ..

end Lookup

namespace Importing

open Lookup

theorem Ready.importNames_fills {i : Fin n} {source : ModuleId} {ns : Namespace}
    (brought : List (String × Binding)) {s : ImportState n} {log : Log}
    (ready : Ready imports s) (good : ∀ name ∈ brought, name.2.Good s.defs ns)
    (mem : ∀ name ∈ brought, name.1 ∈ names) :
    Run False (importNames imports i source ns brought) s log fun changed s' _ =>
      Progress imports s s' ∧ ModuleTree.Fills names changed s.tree s'.tree := by
  induction brought generalizing s log with
  | nil => exact ⟨.refl ready, .refl ..⟩
  | cons first brought ih =>
    obtain ⟨name, binding⟩ := first
    simp only [importNames, Run.bind_iff, Run.pure_iff]
    have firstGood := good _ (List.mem_cons_self ..)
    have firstMem := mem _ (List.mem_cons_self ..)
    apply ((globBind_progress name ready firstGood).and (globBind_fills firstMem firstGood)).mono
    rintro changed s₁ log₁ ⟨progress, fills⟩
    apply (ih progress.ready
      (fun name mem' => progress.good (good name (List.mem_cons_of_mem _ mem')))
      fun name mem' => mem name (List.mem_cons_of_mem _ mem')).mono
    rintro later s₂ log₂ ⟨progress', fills'⟩
    exact ⟨progress.trans progress', fills.trans fills'⟩

theorem Ready.importNamespaces_fills {i : Fin n} {source : ModuleId}
    (namespaces : List Namespace) {s : ImportState n} {log : Log}
    (ready : Ready imports s) (known : s.tree.Known source) (named : s.tree.Named names) :
    Run False (importNamespaces imports i source namespaces) s log fun changed s' _ =>
      Progress imports s s' ∧ ModuleTree.Fills names changed s.tree s'.tree := by
  induction namespaces generalizing s log with
  | nil => exact ⟨.refl ready, .refl ..⟩
  | cons ns others ih =>
    obtain ⟨m, found⟩ := known.find?
    simp only [importNamespaces, lift, Run.bind_iff, Run.get_iff, Run.lift_iff, Run.pure_iff,
      ModuleTree.get_of_find? found, Yields.ok_iff]
    have bound : ∀ name ∈ m.bindings ns, s.tree.bindingAt? source ns name.1 = some name.2 := by
      rintro ⟨name, binding⟩ mem
      rw [ModuleTree.bindingAt?_of_find? found]
      exact Std.TreeMap.mem_toList_iff_getElem?_eq_some.mp mem
    have good : ∀ name ∈ m.bindings ns, name.2.Good s.defs ns :=
      fun name mem => ready.intact.bindings (bound name mem)
    have inNames : ∀ name ∈ m.bindings ns, name.1 ∈ names :=
      fun name mem => named.mem (bound name mem)
    apply (importNames_fills _ ready good inNames).mono
    rintro changed s₁ log₁ ⟨progress, fills⟩
    apply (ih progress.ready (progress.known known) (fills.named named)).mono
    rintro later s₂ log₂ ⟨progress', fills'⟩
    exact ⟨progress.trans progress', fills.trans fills'⟩

theorem Ready.applyGlobs_fills (globs : List (Fin n × ModuleId)) {s : ImportState n}
    {log : Log} (ready : Ready imports s) (known : Sources globs s)
    (named : s.tree.Named names) :
    Run False (applyGlobs imports globs) s log fun changed s' _ =>
      Progress imports s s' ∧ ModuleTree.Fills names changed s.tree s'.tree := by
  induction globs generalizing s log with
  | nil => exact ⟨.refl ready, .refl ..⟩
  | cons glob globs ih =>
    obtain ⟨i, source⟩ := glob
    have there : s.tree.Known source := known _ (List.mem_cons_self ..)
    have applied : Run False (applyGlob imports i source) s log fun changed s' _ =>
        Progress imports s s' ∧ ModuleTree.Fills names changed s.tree s'.tree := by
      unfold applyGlob
      split
      · exact ⟨.refl ready, .refl ..⟩
      · exact ready.importNamespaces_fills _ there named
    simp only [applyGlobs, Run.bind_iff, Run.pure_iff]
    apply applied.mono
    rintro changed s₁ log₁ ⟨progress, fills⟩
    have known₁ : Sources globs s₁ :=
      Sources.progress (fun glob mem => known glob (List.mem_cons_of_mem _ mem)) progress
    apply (ih progress.ready known₁ (fills.named named)).mono
    rintro later s₂ log₂ ⟨progress', fills'⟩
    exact ⟨progress.trans progress', fills.trans fills'⟩

/-! ## All rounds -/

variable (imports) in
/-- Applies all globs until nothing new is bound, at most `rounds` times. Tells whether they have
    come to rest. -/
def settle (globs : List (Fin n × ModuleId)) : Nat → Importing n Bool
  | 0 => return false
  | rounds + 1 => do
    if ← applyGlobs imports globs then settle globs rounds
    else return true

/-- Where there are more rounds than free places, the globs come to rest. -/
theorem Ready.run_settle (globs : List (Fin n × ModuleId)) (rounds : Nat) {s : ImportState n}
    {log : Log} (ready : Ready imports s) (known : Sources globs s)
    (named : s.tree.Named names) (enough : (s.tree.freePlaces names).length < rounds) :
    Run False (settle imports globs rounds) s log fun settled _ _ => settled = true := by
  induction rounds generalizing s log with
  | zero => omega
  | succ rounds ih =>
    rw [settle, Run.bind_iff]
    apply (ready.applyGlobs_fills globs known named).mono
    rintro changed s₁ log₁ ⟨progress, fills⟩
    have fewer := fills.length_freePlaces
    cases changed with
    | true =>
      rw [if_pos rfl] at fewer
      exact ih progress.ready (known.progress progress) (fills.named named) (by omega)
    | false => exact rfl

/-- Globs that have come to rest would stay so for any number of rounds. -/
theorem settle_mono {globs : List (Fin n × ModuleId)} {rounds rounds' : Nat}
    (le : rounds ≤ rounds') {s s' : ImportState n} {log log' : Log}
    (run : settle imports globs rounds s log = .ok (true, s') log') :
    settle imports globs rounds' s log = .ok (true, s') log' := by
  induction rounds generalizing rounds' s log with
  | zero => cases run
  | succ rounds ih =>
    obtain ⟨rounds', rfl⟩ : ∃ more, rounds' = more + 1 := ⟨rounds' - 1, by omega⟩
    rw [settle] at run ⊢
    obtain ⟨⟨changed, s₁⟩, log₁, applied, rest⟩ := Logged.bind_eq_ok.mp run
    refine Logged.bind_eq_ok.mpr ⟨(changed, s₁), log₁, applied, ?_⟩
    cases changed with
    | true => exact ih (Nat.le_of_succ_le_succ le) rest
    | false => exact rest

/-- Nothing but the answer is different from the loop of the import phase. -/
theorem saturate_of_settle {globs : List (Fin n × ModuleId)} {rounds : Nat} {settled : Bool}
    {s s' : ImportState n} {log log' : Log}
    (run : settle imports globs rounds s log = .ok (settled, s') log') :
    saturate imports globs rounds s log = .ok ((), s') log' := by
  induction rounds generalizing s log with
  | zero =>
    cases run
    rfl
  | succ rounds ih =>
    rw [settle] at run
    rw [saturate]
    obtain ⟨⟨changed, s₁⟩, log₁, applied, rest⟩ := Logged.bind_eq_ok.mp run
    refine Logged.bind_eq_ok.mpr ⟨(changed, s₁), log₁, applied, ?_⟩
    cases changed with
    | true => exact ih rest
    | false =>
      cases rest
      rfl

end Importing

end NameResolution
