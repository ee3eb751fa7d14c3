import NameResolution.Proofs.Resolution.Visibility

/-! # Absolute paths

    An absolute path starts at the root, wherever it is written. The scopes
    around it are asked for one thing: the module that it is written in, and
    that only to decide whether to warn of a private member. -/

namespace NameResolution

/-! ## Searches that differ in their warnings -/

/-- Nothing but warnings of private access has been added. -/
def Warned (before after : List Diagnostic) : Prop :=
  ∃ added, after = before ++ added ∧
    ∀ d ∈ added, ∃ name module span, d = .privateAccess name module span

namespace Warned

theorem refl (warnings : List Diagnostic) : Warned warnings warnings :=
  ⟨[], (List.append_nil warnings).symm, List.forall_mem_nil _⟩

theorem trans {first second third : List Diagnostic} (h : Warned first second)
    (h' : Warned second third) : Warned first third := by
  obtain ⟨added, rfl, private₁⟩ := h
  obtain ⟨added', rfl, private₂⟩ := h'
  exact ⟨added ++ added', List.append_assoc .., List.forall_mem_append.mpr ⟨private₁, private₂⟩⟩

theorem privateAccess (warnings : List Diagnostic) (name module : String) (span : Span) :
    Warned warnings (warnings ++ [.privateAccess name module span]) :=
  ⟨_, rfl, List.forall_mem_singleton.mpr ⟨name, module, span, rfl⟩⟩

end Warned

/-- Where two searches come to an end, they come to the same result or to the same error. Each has
    its own warnings of private access on the way. -/
def PathSearch.SameButWarnings {α : Type} (m m' : PathSearch α) : Prop :=
  ∀ warnings warnings', NameResolution.Concur
    (fun p p' => p.1 = p'.1 ∧ Warned warnings p.2 ∧ Warned warnings' p'.2)
    (m.run.run warnings) (m'.run.run warnings')

namespace PathSearch.SameButWarnings

variable {α β : Type} {m m' : PathSearch α} {f f' : α → PathSearch β}

theorem of_silent (h : Silent m) : SameButWarnings m m := by
  intro warnings warnings'
  obtain ⟨outcome, runs⟩ := h
  rw [runs, runs]
  cases outcome with
  | ok r => exact .ok ⟨rfl, .refl warnings, .refl warnings'⟩
  | error fault => exact .fault

theorem bind (h : SameButWarnings m m') (h' : ∀ a, SameButWarnings (f a) (f' a)) :
    SameButWarnings (m >>= f) (m' >>= f') := by
  intro warnings warnings'
  show NameResolution.Concur _
    (m.run.run warnings >>= fun p => (ExceptT.bindCont f p.1).run p.2)
    (m'.run.run warnings' >>= fun p => (ExceptT.bindCont f' p.1).run p.2)
  refine (h warnings warnings').bind ?_
  rintro ⟨r, warnings₁⟩ ⟨_, warnings₁'⟩ ⟨rfl, warned, warned'⟩
  cases r with
  | error d => exact .ok ⟨rfl, warned, warned'⟩
  | ok a =>
    intro p p' run run'
    obtain ⟨same, more, more'⟩ := h' a warnings₁ warnings₁' p p' run run'
    exact ⟨same, warned.trans more, warned'.trans more'⟩

end PathSearch.SameButWarnings

namespace Tables

variable {tables : Tables} {origin origin' : ModuleId}
  {ns : Namespace} {suffix : Option String} {path : Path}

/-- Where the check of a member comes to an end, it has warned at most. -/
theorem yields_checkPrivacy (origin owner : ModuleId) (member : DefId) (ident : Ident)
    (warnings : List Diagnostic) :
    Yields True ((tables.checkPrivacy origin owner member ident).run.run warnings) fun p =>
      p.1 = .ok () ∧ Warned warnings p.2 := by
  -- what is read may be missing, but a search that reads goes on or ends with a fault
  have reads {α β : Type} {result : Except Fault α} {f : α → PathSearch β}
      {post : Except Diagnostic β × List Diagnostic → Prop}
      (h : ∀ a, Yields True ((f a).run.run warnings) post) :
      Yields True ((liftM result >>= f : PathSearch β).run.run warnings) post := by
    cases result with
    | error fault => trivial
    | ok a => exact h a
  unfold checkPrivacy
  split
  · refine reads fun within => ?_
    split
    · exact ⟨rfl, .refl warnings⟩
    · refine reads fun visible => ?_
      split
      · exact ⟨rfl, .refl warnings⟩
      · refine reads fun m => reads fun name => ?_
        exact ⟨rfl, .privateAccess warnings ident.name name ident.span⟩
  · exact ⟨rfl, .refl warnings⟩

/-- From wherever it is reached, a member is checked with no other outcome than a warning. -/
theorem sameButWarnings_checkPrivacy (owner : ModuleId) (member : DefId) (ident : Ident) :
    PathSearch.SameButWarnings (tables.checkPrivacy origin owner member ident)
      (tables.checkPrivacy origin' owner member ident) := by
  intro warnings warnings'
  refine .of_yields (yields_checkPrivacy origin owner member ident warnings)
    (yields_checkPrivacy origin' owner member ident warnings') ?_
  rintro ⟨_, _⟩ ⟨_, _⟩ ⟨rfl, warned⟩ ⟨rfl, warned'⟩
  exact ⟨rfl, warned, warned'⟩

/-- From wherever they are followed, segments lead to the same. -/
theorem sameButWarnings_followMembers (id : DefId) (segments : List Segment) :
    PathSearch.SameButWarnings (tables.followMembers origin ns suffix id segments)
      (tables.followMembers origin' ns suffix id segments) := by
  induction segments generalizing id with
  | nil =>
    unfold followMembers
    exact .of_silent (.pure _)
  | cons segment rest ih =>
    unfold followMembers
    cases segment.ident? with
    | none => exact .of_silent (.throw _)
    | some ident =>
      dsimp only
      refine .bind (.of_silent (.lift _)) fun definition => ?_
      cases tables.defs.module? id with
      | none =>
        simp only [pure_bind]
        split
        · exact .of_silent (.pure _)
        · exact .of_silent (.throw _)
      | some module =>
        dsimp only
        refine .bind (.of_silent (.lift _)) fun found => ?_
        cases found with
        | none =>
          dsimp only
          split
          · exact .of_silent (.pure _)
          · exact .of_silent (.bind (.lift _) fun _ => .throw _)
        | some binding =>
          dsimp only
          refine .bind (.of_silent (silent_selectMember tables _ _ _)) fun member => ?_
          -- only here it is asked where the path is written
          refine .bind (sameButWarnings_checkPrivacy module member ident) fun _ => ?_
          exact .bind (.of_silent (silent_followAlias tables _ _)) fun final => ih final

end Tables

end NameResolution
