import NameResolution.Proofs.Text.Pieces
import NameResolution.Proofs.Text.Tour
import NameResolution.Proofs.Text.Walk

/-! # Where `Self` may be written

    `Self` and `self` are words for the innermost struct, enum, trait or impl
    around them. From inside a `mod` none is seen that lies outside of it. Which
    one it is can be told from the text. -/

namespace NameResolution

/-! ## Items around a point -/

/-- The item whose members a region holds. -/
def Region.item? : Region → Option NodeId
  | ⟨.item, .item node, _⟩ => some node
  | _ => none

namespace Regions

/-- The items around a point of the text that hold it among their members, innermost first. -/
def items (around : Regions) : List NodeId := around.filterMap Region.item?

@[simp] theorem items_binding (binders : List Binder) (around : Regions) :
    (around.binding binders).items = around.items := by
  cases around with
  | nil => rfl
  | cons region around =>
    obtain ⟨kind, owner, _⟩ := region
    cases kind <;> cases owner <;> rfl

@[simp] theorem items_plain (kind : ScopeKind) (around : Regions) :
    (around.plain kind).items = around.items := by
  cases kind <;> rfl

end Regions

/-- A scope is that of an item, or it has none. -/
theorem Opens.items {around inside : Regions} {step : WalkStep} {node : NodeId} {role : Role}
    (opens : Opens around step node role inside) :
    role = .item ∧ inside.items = node :: around.items ∨ inside.items = around.items := by
  cases opens with
  | item => exact .inl ⟨rfl, rfl⟩
  | @func _ owns => cases owns <;> exact .inr rfl
  | @block kind _ owns => cases kind <;> cases owns <;> exact .inr rfl

/-- What is bound on the way changes nothing about the items. -/
theorem Traces.items_after {around after : Regions} {walk : Walk} {occs : List Occurrence}
    (h : Traces around walk occs after) : after.items = around.items := by
  induction h with
  | nothing | silent | refer | plain | within => rfl
  | bind | bareName => exact Regions.items_binding ..
  | append _ _ ih ih' => exact ih'.trans ih

/-- The items around an occurrence are occurrences themselves, but for those around all of them. -/
theorem Traces.items_around {around after : Regions} {walk : Walk} {occs : List Occurrence}
    (h : Traces around walk occs after) : ∀ occ ∈ occs, ∀ node ∈ occ.around.items,
      node ∈ around.items ∨ ∃ opened ∈ occs, opened.role = .item ∧ opened.node = node := by
  induction h with
  | nothing => exact List.forall_mem_nil _
  | silent | refer | bind | bareName =>
    intro occ mem node inside
    rw [List.mem_singleton.mp mem] at inside
    exact .inl inside
  | plain _ _ ih => simpa only [Regions.items_plain] using ih
  | @within around inside step node role walk occs binders opens inner ih =>
    refine List.forall_mem_cons.mpr ⟨fun _ outside => .inl outside, fun occ mem other within => ?_⟩
    rcases ih occ mem other within with outside | ⟨opened, mem', isItem⟩
    · rcases opens.items with ⟨isItem, items⟩ | items
      · rw [items] at outside
        rcases List.mem_cons.mp outside with rfl | outside
        · exact .inr ⟨_, List.mem_cons_self .., isItem, rfl⟩
        · exact .inl outside
      · exact .inl (items ▸ outside)
    · exact .inr ⟨opened, List.mem_cons_of_mem _ mem', isItem⟩
  | @append around middle after first second occs others h h' ih ih' =>
    intro occ mem node inside
    rcases List.mem_append.mp mem with mem | mem
    · refine (ih occ mem node inside).imp_right ?_
      rintro ⟨opened, mem', isItem⟩
      exact ⟨opened, List.mem_append_left _ mem', isItem⟩
    · rw [← h.items_after]
      refine (ih' occ mem node inside).imp_right ?_
      rintro ⟨opened, mem', isItem⟩
      exact ⟨opened, List.mem_append_right _ mem', isItem⟩

/-- Each item with members is to be defined. -/
theorem Declares.exists_entry {home : RegionOwner} {outline : Outline} {occs : List Occurrence}
    (h : Declares home outline occs) : ∀ occ ∈ occs, occ.role = .item →
      ∃ entry ∈ outline.entries, entry.node = occ.node := by
  -- behind the step into a module there are the entries of what is inside it
  have within {first : OutlineStep} {inner : Outline} {node : NodeId}
      (h : ∃ entry ∈ inner.entries, entry.node = node) :
      ∃ entry ∈ Outline.entries (first :: (inner ++ [.leave])), entry.node = node := by
    obtain ⟨entry, mem, same⟩ := h
    refine ⟨entry, ?_, same⟩
    rw [Outline.entries_cons, Outline.entries_append]
    exact List.mem_append_right _ (List.mem_append_left _ mem)
  induction h with
  | nothing => exact List.forall_mem_nil _
  | @skip _ occ silent =>
    refine List.forall_mem_singleton.mpr fun isItem => ?_
    rw [isItem] at silent
    cases silent
  | declare | declareFunc | imports =>
    exact List.forall_mem_singleton.mpr (by rintro ⟨⟩)
  | item _ _ _ ih | impl _ _ ih =>
    refine List.forall_mem_cons.mpr ⟨fun _ => ?_, fun occ mem isItem => within (ih occ mem isItem)⟩
    rw [Outline.entries_cons]
    exact ⟨_, List.mem_append_left _ (List.mem_singleton_self _), rfl⟩
  | func _ _ ih | block _ _ ih =>
    exact List.forall_mem_cons.mpr
      ⟨by rintro ⟨⟩, fun occ mem isItem => within (ih occ mem isItem)⟩
  | append _ _ ih ih' =>
    intro occ mem isItem
    rw [Outline.entries_append]
    rcases List.mem_append.mp mem with mem | mem
    · obtain ⟨entry, mem', same⟩ := ih occ mem isItem
      exact ⟨entry, List.mem_append_left _ mem', same⟩
    · obtain ⟨entry, mem', same⟩ := ih' occ mem isItem
      exact ⟨entry, List.mem_append_right _ mem', same⟩
  | perm _ same ih => exact fun occ mem => ih occ (same.mem_iff.mpr mem)

/-! ## The rule -/

namespace Program

variable {program : Program} {around : Regions} {node : NodeId}

/-- The items around a node of a program are to be defined. -/
theorem exists_entry_of_around {occ : Occurrence} (mem : occ ∈ program.occurrences)
    (inside : node ∈ occ.around.items) : ∃ entry ∈ program.entries, entry.node = node := by
  rcases program.traces_walk.items_around occ mem node inside with outside | ⟨opened, mem', isItem,
    rfl⟩
  · cases outside
  · obtain ⟨entry, mem'', same⟩ := program.declares_outline.exists_entry opened mem' isItem
    rw [entries_eq]
    exact ⟨entry, List.mem_cons_of_mem _ mem'', same⟩

/-- Whether there is something of one of these kinds at a node. -/
def isOneOf (program : Program) (kinds : List DefKind) (node : NodeId) : Bool :=
  program.entries.any fun entry => entry.node == node && kinds.contains entry.kind

/-- The item that `Self` and `self` stand for at a point of the text: the innermost struct, enum,
    trait or impl around it, unless a `mod` comes first. -/
def selfItem? (program : Program) (around : Regions) : Option NodeId :=
  (around.items.find? (program.isOneOf [.struct, .enum, .trait, .impl, .mod])).filter
    (program.isOneOf [.struct, .enum, .trait, .impl])

/-- Between the point and its item there is no `mod`, and no other such item. -/
theorem selfItem?_eq_some_iff : program.selfItem? around = some node ↔
    program.isOneOf [.struct, .enum, .trait, .impl] node = true ∧
      ∃ inner outer, around.items = inner ++ node :: outer ∧ ∀ between ∈ inner,
        program.isOneOf [.struct, .enum, .trait, .impl, .mod] between = false := by
  have sub (isSelf : program.isOneOf [.struct, .enum, .trait, .impl] node = true) :
      program.isOneOf [.struct, .enum, .trait, .impl, .mod] node = true := by
    obtain ⟨entry, mem, same⟩ := List.any_eq_true.mp isSelf
    refine List.any_eq_true.mpr ⟨entry, mem, ?_⟩
    simp only [Bool.and_eq_true, List.contains_eq_mem, decide_eq_true_eq] at same ⊢
    have all : entry.kind ∈ [.struct, .enum, .trait, .impl] ++ [DefKind.mod] :=
      List.mem_append_left _ same.2
    exact ⟨same.1, all⟩
  rw [selfItem?, Option.filter_eq_some_iff, List.find?_eq_some_iff_append, and_comm]
  refine and_congr_right fun isSelf => ?_
  simp [sub isSelf]

end Program

end NameResolution
