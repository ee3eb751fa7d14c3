import NameResolution.Proofs.Privacy
import NameResolution.Proofs.Resolution.Suggestions

/-! # Suggestions

    Whatever a program is told of a name that is not found is true: what is
    suggested is there, and whatever is there is suggested, as far as it may be.
    What would have been found is never suggested. -/

namespace NameResolution

namespace Resolving

variable {tables : Tables} {program : Program} {s resolved : ResolveState}

/-- A lifetime is looked up by its name alone. -/
theorem Meets.short_of_lifetime {path : Path} {labels : Option String}
    (h : Meets tables program .lifetime path labels s resolved) :
    path.global = false ∧ path.segments.length = 1 := by
  obtain ⟨before, step, after, split, -, looksUp⟩ := h
  have mem : step ∈ Walk.ofProgram program := by
    rw [split]
    exact List.mem_append_right _ (List.mem_cons_self ..)
  generalize isLifetime : Namespace.lifetime = ns at looksUp
  cases looksUp with
  | path =>
    subst isLifetime
    obtain ⟨node, role, refers⟩ := program.traces_walk.refers_of_mem mem
    cases refers
    exact ⟨rfl, rfl⟩
  | @typeArg _ isValue => cases isValue <;> cases isLifetime

/-- What is reported as not found has not been found where the second pass has come upon it. -/
theorem unfound_of_resolveNames {labels : NodeId → String → Prop}
    (sound : Sound labels (tables.defs, tables.tree)) {log log' : Log}
    (run : resolveNames tables program log = .ok resolved log') {d : Diagnostic}
    (mem : d ∈ resolved.diagnostics) (isUnresolved : d.isUnresolvedName = true) :
    ∃ ns path labels s, Meets tables program ns path labels s resolved ∧
      tables.Unfound s.scopes ns path d := by
  have intact : Intact tables.defs tables.tree := sound.intact
  obtain ⟨before, step, after, s, split, through, reports⟩ :=
    exists_reports intact.validDefs run mem
  cases reports with
  | @path _ ns path labels result warnings _ looksUp came mem =>
    have meets : Meets tables program ns path labels s resolved :=
      ⟨before, step, after, split, through, looksUp⟩
    obtain ⟨log₀, log₁, _, front, -⟩ := through
    have placed : s.scopes.Placed tables := placed_of_follow intact front
    rcases List.mem_append.mp mem with warned | failed
    · obtain ⟨_, rfl, private'⟩ := Tables.warned_of_resolvePath came
      obtain ⟨name, module, span, rfl⟩ := private' d warned
      cases isUnresolved
    · cases result with
      | ok r => cases failed
      | error d' =>
        obtain rfl := List.mem_singleton.mp failed
        refine ⟨ns, path, labels, s, meets,
          Tables.unfound_of_resolvePath sound placed ?_ came isUnresolved⟩
        rintro rfl
        exact meets.short_of_lifetime
  | noSelf => cases isUnresolved

end Resolving

namespace Session

open Resolving

/-- The tables of a build have the configuration of its session. -/
theorem config_of_build {config : Config} {program : Program} {log log' : Log}
    {reported : List Diagnostic} {built : Session}
    (run : (new config).build program log = .ok (reported, built) log') :
    built.tables.config = config := by
  obtain ⟨declared, log₁, -, imported, log₂, -, -, -, -, same⟩ := parts_of_build rfl rfl rfl run
  exact same

/-- Suggestions are truthful. Whatever the second pass over the tables of a build reports as not
    found, it has come upon in a path, and where that is a name that is looked up, it is told by
    the same lookup in the other namespaces what the alternatives are. -/
theorem suggestions_are_truthful {config : Config} {program : Program} {log log' : Log}
    {reported : List Diagnostic} {built : Session}
    (run : (new config).build program log = .ok (reported, built) log') {log₁ log₂ : Log}
    {resolved : ResolveState}
    (second : resolveNames built.tables program log₁ = .ok resolved log₂) {name : String}
    {ns : Namespace} {span : Span} {alternatives : List String} {help : Option String}
    (mem : .unresolvedName name ns span alternatives help ∈ resolved.diagnostics) :
    built.tables.config = config ∧ ∃ ns' path labels s,
      Meets built.tables program ns' path labels s resolved ∧
        built.tables.Unfound s.scopes ns' path
          (.unresolvedName name ns span alternatives help) := by
  obtain ⟨sound, -⟩ := sound_of_build run
  exact ⟨config_of_build run, unfound_of_resolveNames sound second mem rfl⟩

/-- A struct that is used like a value:

        struct S {}
        const c = S; -/
def misplaced : Program :=
  ⟨⟨0⟩, ⟨0, 24⟩,
    [.struct ⟨⟨1⟩, false, ⟨1, 1⟩⟩ ⟨"S", ⟨1, 1⟩⟩ [] [],
    .const ⟨⟨2⟩, false, ⟨2, 1⟩⟩ ⟨"c", ⟨2, 1⟩⟩ none
      (some (.path ⟨⟨3⟩, false, [⟨.name "S", ⟨3, 1⟩⟩], false⟩ []))]⟩

/-- The value is not found, and it is told that there is such a struct. -/
theorem suggestions_are_truthful_of_misplaced :
    let d : Diagnostic := .unresolvedName "S" .value ⟨3, 1⟩ ["a struct in the type namespace"]
      (some "`S` exists as a struct in the type namespace")
    ∃ reported built log', (new {}).build misplaced .empty = .ok (reported, built) log' ∧
      ∃ resolved log₂, resolveNames built.tables misplaced log' = .ok resolved log₂ ∧
        d ∈ resolved.diagnostics ∧ built.tables.config = {} ∧ ∃ ns path labels s,
          Meets built.tables misplaced ns path labels s resolved ∧
            built.tables.Unfound s.scopes ns path d := by
  let d : Diagnostic := .unresolvedName "S" .value ⟨3, 1⟩ ["a struct in the type namespace"]
    (some "`S` exists as a struct in the type namespace")
  have checked : ∃ r log', ((new {}).build misplaced >>= fun p => do
      return (p, ← resolveNames p.2.tables misplaced)) .empty = .ok r log' ∧
        decide (d ∈ r.2.diagnostics) = true :=
    Logged.exists_of_check (by decide +kernel)
  obtain ⟨⟨⟨reported, built⟩, resolved⟩, _, both, holds⟩ := checked
  obtain ⟨_, log', run, follows⟩ := Logged.bind_eq_ok.mp both
  obtain ⟨_, _, second, last⟩ := Logged.bind_eq_ok.mp follows
  cases last
  have mem : d ∈ resolved.diagnostics := of_decide_eq_true holds
  exact ⟨reported, built, log', run, resolved, _, second, mem,
    suggestions_are_truthful run second mem⟩

end Session

end NameResolution
