import NameResolution.Proofs.Declaration.Outcome
import NameResolution.Proofs.Tables.Moments

/-! # What the first pass writes

    Whatever state a step of the first pass starts from, and be it one in which
    it ends with a fault: it changes the tables by one operation after another,
    and each of them is noted. -/

namespace NameResolution

/-- The tables that the first pass has come to. -/
def DeclareState.tables (s : DeclareState) : Definitions × ModuleTree := (s.defs, s.tree)

namespace Declaring

/-- A part of the first pass notes what it does to the tables. -/
abbrev Tells {α : Type} (m : Declaring α) (s : DeclareState) : Prop :=
  Narrates DeclareState.tables m s

variable {s : DeclareState} {α : Type}

theorem tells_setDefs {defs : Definitions} (operation : TableOperation s.tables (defs, s.tree))
    {f : Unit → Declaring α} (h : Tells (f ()) { s with defs }) :
    Tells (setDefs defs >>= f) s := by
  have writes : Tells (setDefs defs) s :=
    .note { s with defs } (fun _ => rfl) rfl (.single operation)
  exact writes.bind_from (fun _ => rfl) fun _ => h

theorem tells_setTree {tree : ModuleTree} (operation : TableOperation s.tables (s.defs, tree))
    {f : Unit → Declaring α} (h : Tells (f ()) { s with tree }) :
    Tells (setTree tree >>= f) s := by
  have writes : Tells (setTree tree) s :=
    .note { s with tree } (fun _ => rfl) rfl (.single operation)
  exact writes.bind_from (fun _ => rfl) fun _ => h

theorem tells_report (diagnostic : Diagnostic) (s : DeclareState) :
    Tells (report diagnostic) s := .modify rfl

theorem tells_reportTaken (name : String) (span : Span) (first : Binding) (s : DeclareState) :
    Tells (reportTaken name span first) s :=
  .reads <| .lift_bind fun d _ => tells_report d s

theorem tells_define (isPub : Bool) (node : NodeId) (kind : DefKind) (ident : Ident)
    (s : DeclareState) : Tells (define isPub node kind ident) s :=
  .reads <| .emit_bind <| .lift_bind fun _ made => tells_setDefs (.define made) (.pure _ _)

theorem tells_bind (ns : Namespace) (name : String) (binding : Binding) (s : DeclareState) :
    Tells (bind ns name binding) s := by
  refine .reads (.lift_bind fun bound made => ?_)
  cases bound with
  | bound tree => exact tells_setTree (.bind made) (.pure _ _)
  | taken first => exact .pure _ _

theorem tells_declare (isPub : Bool) (node : NodeId) (kind : DefKind) (ident : Ident)
    (s : DeclareState) : Tells (declare isPub node kind ident) s := by
  refine (tells_define isPub node kind ident s).andThen fun id s₁ => ?_
  split
  · exact .lift _ _
  · refine (tells_bind _ _ _ s₁).andThen fun first s₂ => ?_
    split
    · exact (tells_reportTaken _ _ _ s₂).andThen fun _ => .pure _
    · exact .pure _ _

theorem tells_addFunction (id : DefId) (set : Option OverloadId) (suffix : String)
    (s : DeclareState) : Tells (addFunction id set suffix) s :=
  .reads <| .lift_bind fun _ made => tells_setDefs (.addFunction made) (.pure _ _)

theorem tells_declareFunc (isPub : Bool) (node : NodeId) (kind : FuncKind) (ident : Ident)
    (suffix : String) (s : DeclareState) :
    Tells (declareFunc isPub node kind ident suffix) s := by
  refine (tells_define isPub node _ ident s).andThen fun id s₁ =>
    .reads (.lift_bind fun m _ => ?_)
  split
  · refine (tells_addFunction id _ suffix s₁).andThen fun added s₂ => ?_
    cases added with
    | added _ => exact .pure _ _
    | taken first => exact (tells_reportTaken _ _ _ s₂).andThen fun _ => .pure _
  · exact (tells_reportTaken _ _ _ s₁).andThen fun _ => .pure _
  · refine (tells_addFunction id none suffix s₁).andThen fun added s₂ => ?_
    cases added with
    | taken _ => exact .lift _ _
    | added set =>
      refine (tells_bind _ _ _ s₂).andThen fun first s₃ => ?_
      split
      · exact (Narrates.lift _ s₃).andThen fun _ => .pure _
      · exact .pure _ _

theorem tells_enter (id : DefId) (name : Option String) (node : NodeId) (s : DeclareState) :
    Tells (enter id name node) s := by
  refine .reads (.lift_bind fun parent _ => .lift_bind ?_)
  rintro ⟨module, tree⟩ child
  refine tells_setTree ?_ (.lift_bind fun defs made => ?_)
  · split at child
    · exact .addNamed child
    · exact .addAnonymous child
  · exact tells_setDefs (s := { s with tree }) (.addModule made) (.modify rfl)

theorem tells_enterBlock (node : NodeId) (s : DeclareState) : Tells (enterBlock node) s := by
  refine .reads (.lift_bind ?_)
  rintro ⟨module, tree⟩ child
  refine tells_setTree (.addAnonymous child) (.lift_bind fun defs made => ?_)
  exact tells_setDefs (s := { s with tree }) (.addBlock made) (.modify rfl)

theorem tells_leave (s : DeclareState) : Tells leave s := by
  refine .reads (.lift_bind fun m _ => ?_)
  split
  · exact .modify rfl
  · exact .lift _ _

theorem tells_step (step : OutlineStep) (s : DeclareState) :
    Tells (Declaring.step step) s := by
  cases step with
  | declare => exact (tells_declare _ _ _ _ s).andThen fun _ => .pure _
  | enterItem => exact (tells_declare _ _ _ _ s).andThen fun id => tells_enter id _ _
  | enterImpl => exact (tells_define _ _ _ _ s).andThen fun id => tells_enter id _ _
  | declareFunc => exact (tells_declareFunc _ _ _ _ _ s).andThen fun _ => .pure _
  | enterFunc => exact (tells_declareFunc _ _ _ _ _ s).andThen fun r => tells_enter r.1 _ _
  | enterBlock => exact tells_enterBlock _ s
  | leave => exact tells_leave s
  | imports => exact .modify rfl

/-- The program itself is defined like anything else. -/
theorem tells_wholeProgram (program : Program) (s : DeclareState) :
    Tells (wholeProgram program) s := by
  have rest (s : DeclareState) : Tells (do
      let root ← define true program.id .mod ⟨"[root]", program.span⟩
      setDefs (← lift ((← get).defs.addModule root .root))
      follow (.ofProgram program)
      let s ← get
      Logged.emit (.built s.defs.size s.tree.size s.directives.length)) s := by
    refine (tells_define _ _ _ _ s).andThen fun root s₁ => .reads (.lift_bind fun defs made =>
      tells_setDefs (.addModule made) ?_)
    have follows := Narrates.forM (Outline.ofProgram program)
      (fun step _ => tells_step step) { s₁ with defs }
    exact follows.andThen fun _ s₂ => .emit _ s₂
  show Tells (if s.defs.size ≠ 0 ∨ s.tree.size ≠ 1 then _ else _) s
  split
  · exact (Narrates.lift _ s).andThen fun _ => rest
  · exact rest s

end Declaring

/-- The first pass notes what it does to the tables, as far as it comes. -/
theorem declareProgram_recounts (defs : Definitions) (tree : ModuleTree) (program : Program)
    (events : Array Event) :
    ∃ outcome events' noted tables',
      (declareProgram defs tree program).Recounts events outcome events' noted ∧
        Leads (defs, tree) noted tables' ∧ ∀ built, outcome = .ok built → built.tables = tables' :=
  (Declaring.tells_wholeProgram program (.start defs tree)).runs events

end NameResolution
