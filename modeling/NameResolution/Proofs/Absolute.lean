import NameResolution.Proofs.Privacy
import NameResolution.Proofs.Resolution.Absolute

/-! # Absolute paths

    What an absolute path comes to is the same at every point of a program. Only
    the warnings on the way tell where it is written, and they tell no more than
    the module. -/

namespace NameResolution

namespace Tables

/-- For any tables and from any two points: an absolute path comes to the same result or to the same
    error, wherever it comes to an end in both. The two runs may differ in warnings of private
    access alone, and they are the same, faults and all, where both points have the same nearest
    module. In scopes over intact tables both come to an end. -/
theorem absolute_path_ignores_scopes (tables : Tables) (stack stack' : ScopeStack)
    (ns : Namespace) (suffix : Option String) (path : Path) (global : path.global = true)
    (spelled : path.segments ≠ []) (warnings : List Diagnostic) :
    (∀ result result' after after',
      (tables.resolvePath stack ns path suffix).run.run warnings = .ok (result, after) →
      (tables.resolvePath stack' ns path suffix).run.run warnings = .ok (result', after') →
      result = result' ∧ Warned warnings after ∧ Warned warnings after') ∧
    (stack.nearestModule = stack'.nearestModule →
      (tables.resolvePath stack ns path suffix).run.run warnings =
        (tables.resolvePath stack' ns path suffix).run.run warnings) ∧
    (Intact tables.defs tables.tree → stack.Bound tables.tree → stack'.Bound tables.tree →
      ∃ result after after',
        (tables.resolvePath stack ns path suffix).run.run warnings = .ok (result, after) ∧
        (tables.resolvePath stack' ns path suffix).run.run warnings = .ok (result, after')) := by
  rw [resolvePath_of_global global spelled, resolvePath_of_global global spelled]
  have same : PathSearch.SameButWarnings
      (tables.followMembers stack.nearestModule ns suffix .root path.segments)
      (tables.followMembers stack'.nearestModule ns suffix .root path.segments) :=
    sameButWarnings_followMembers .root path.segments
  refine ⟨fun result result' after after' run run' => same _ _ _ _ run run', fun nearest => ?_,
    fun intact bound bound' => ?_⟩
  · rw [nearest]
  · have ends {stack : ScopeStack} (bound : stack.Bound tables.tree) :
        Yields False ((tables.followMembers stack.nearestModule ns suffix .root
          path.segments).run.run warnings) fun _ => True :=
      (searches_followMembers intact (bound.nearestModule intact.validTree) ns suffix path.segments
        intact.known_root (List.Subset.refl _) warnings).mono fun _ _ => trivial
    obtain ⟨⟨result, after⟩, run, -⟩ := Yields.false_iff.mp (ends bound)
    obtain ⟨⟨result', after'⟩, run', -⟩ := Yields.false_iff.mp (ends bound')
    obtain ⟨same, -⟩ := same _ _ _ _ run run'
    exact ⟨result, after, after', run, by rw [run', show result' = result from same.symm]⟩

end Tables

namespace Session

/-- The path `::a::b` comes to the module in the root and in `a` alike, although `b` is a variable
    there. It is warned of `b` as in the root wherever the root is the nearest module. -/
theorem absolute_path_ignores_scopes_of_secret :
    ∃ reported built log', (new {}).build secret .empty = .ok (reported, built) log' ∧
      let path : Path := ⟨⟨3⟩, true, [⟨.name "a", ⟨3, 1⟩⟩, ⟨.name "b", ⟨3, 2⟩⟩], false⟩
      let func : ScopeStack := .push .new (.new .func none none)
      let inside := (ScopeStack.new.push (.new .item (some ⟨1⟩) none)).define .value "b" ⟨4⟩
      (built.tables.resolvePath .new .type path none).run.run [] =
          .ok (.ok (.definition ⟨2⟩), [.privateAccess "b" "a" ⟨3, 2⟩]) ∧
        (built.tables.resolvePath func .type path none).run.run [] =
          .ok (.ok (.definition ⟨2⟩), [.privateAccess "b" "a" ⟨3, 2⟩]) ∧
        ∃ after, (built.tables.resolvePath inside .type path none).run.run [] =
            .ok (.ok (.definition ⟨2⟩), after) ∧ Warned [] after := by
  let path : Path := ⟨⟨3⟩, true, [⟨.name "a", ⟨3, 1⟩⟩, ⟨.name "b", ⟨3, 2⟩⟩], false⟩
  let func : ScopeStack := .push .new (.new .func none none)
  let inside := (ScopeStack.new.push (.new .item (some ⟨1⟩) none)).define .value "b" ⟨4⟩
  have checked : ∃ r log', (new {}).build secret .empty = .ok r log' ∧
      decide ((r.2.tables.resolvePath .new .type path none).run.run [] =
          .ok (.ok (.definition ⟨2⟩), [.privateAccess "b" "a" ⟨3, 2⟩]) ∧
        1 < r.2.tree.size) = true :=
    Logged.exists_of_check (by decide +kernel)
  obtain ⟨⟨reported, built⟩, log', run, checks⟩ := checked
  obtain ⟨atRoot, isModule⟩ := of_decide_eq_true checks
  obtain ⟨sound, -⟩ := sound_of_build run
  have intact : Intact built.tables.defs built.tables.tree := sound.intact
  have bound : ScopeStack.new.Bound built.tables.tree := (ScopeStack.Placed.new intact).modules
  have bound' : inside.Bound built.tables.tree := by
    refine List.forall_mem_cons.mpr ⟨?_, bound⟩
    rintro _ ⟨⟩
    exact isModule
  obtain ⟨same, -, ends⟩ := built.tables.absolute_path_ignores_scopes .new inside .type none path
    rfl (List.cons_ne_nil _ _) []
  obtain ⟨-, alike, -⟩ := built.tables.absolute_path_ignores_scopes .new func .type none path
    rfl (List.cons_ne_nil _ _) []
  obtain ⟨result, after, after', run₁, run₂⟩ := ends intact bound bound'
  obtain ⟨rfl, -, warned⟩ := same _ _ _ _ atRoot run₂
  exact ⟨reported, built, log', run, atRoot, (alike rfl).symm.trans atRoot, after', run₂, warned⟩

end Session

end NameResolution
