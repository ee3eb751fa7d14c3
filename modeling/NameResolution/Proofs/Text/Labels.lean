import NameResolution.Syntax.Label
import Mathlib.Data.List.Basic

/-! # Reading label suffixes

    The labels of a function and the name it goes by are compared as one text
    each. Nothing gets lost in it: a label ends at the first colon, a name at the
    first parenthesis, so the labels can be read off a suffix, and the name and
    the suffix off the text of both. -/

namespace NameResolution

/-! ## Cutting texts -/

/-- A text is cut in one way at its first mark. -/
theorem eq_of_cut {mark : Char} {front front' back back' : List Char} (plain : mark ∉ front)
    (plain' : mark ∉ front') (same : front ++ mark :: back = front' ++ mark :: back') :
    front = front' ∧ back = back' := by
  have before (front back : List Char) (plain : mark ∉ front) :
      (front ++ mark :: back).takeWhile (· != mark) = front := by
    have others : ∀ c ∈ front, (c != mark) = true := by
      intro c mem
      exact bne_iff_ne.mpr fun eq => plain (eq ▸ mem)
    rw [List.takeWhile_append_of_pos others, List.takeWhile_cons_of_neg (by simp), List.append_nil]
  have fronts : front = front' := by
    rw [← before front back plain, same, before front' back' plain']
  subst fronts
  exact ⟨rfl, (List.cons.inj (List.append_cancel_left same)).2⟩

/-- Some labels, each with a colon behind it. -/
def markedLabels (labels : List String) : List Char :=
  labels.flatMap fun label => label.toList ++ [':']

theorem markedLabels_cons (label : String) (labels : List String) :
    markedLabels (label :: labels) = label.toList ++ ':' :: markedLabels labels := by
  simp [markedLabels]

theorem toList_labelsSuffix (labels : List String) :
    (labelsSuffix labels).toList = '(' :: (markedLabels labels ++ [')']) := by
  simp [labelsSuffix, markedLabels, String.toList_append, String.toList_join, List.flatMap_map]

/-! ## Labels -/

/-- Labels without a colon can be read off one after another. -/
theorem markedLabels_inj {labels labels' : List String}
    (plain : ∀ label ∈ labels, ':' ∉ label.toList)
    (plain' : ∀ label ∈ labels', ':' ∉ label.toList)
    (same : markedLabels labels = markedLabels labels') : labels = labels' := by
  induction labels generalizing labels' with
  | nil =>
    cases labels' with
    | nil => rfl
    | cons label' labels' => simp [markedLabels] at same
  | cons label labels ih =>
    cases labels' with
    | nil => simp [markedLabels] at same
    | cons label' labels' =>
      obtain ⟨first, others⟩ := List.forall_mem_cons.mp plain
      obtain ⟨first', others'⟩ := List.forall_mem_cons.mp plain'
      rw [markedLabels_cons, markedLabels_cons] at same
      -- up to the first colon stands the first label, and behind it stand the others
      obtain ⟨here, behind⟩ := eq_of_cut first first' same
      rw [String.toList_inj.mp here, ih others others' behind]

theorem labelsSuffix_inj {labels labels' : List String}
    (plain : ∀ label ∈ labels, ':' ∉ label.toList)
    (plain' : ∀ label ∈ labels', ':' ∉ label.toList)
    (same : labelsSuffix labels = labelsSuffix labels') : labels = labels' := by
  have texts := congrArg String.toList same
  rw [toList_labelsSuffix, toList_labelsSuffix] at texts
  exact markedLabels_inj plain plain' (List.append_cancel_right (List.cons.inj texts).2)

/-- A name without a parenthesis ends where its suffix starts. -/
theorem append_labelsSuffix_inj {name name' : String} {labels labels' : List String}
    (plain : '(' ∉ name.toList) (plain' : '(' ∉ name'.toList)
    (same : name ++ labelsSuffix labels = name' ++ labelsSuffix labels') :
    name = name' ∧ labelsSuffix labels = labelsSuffix labels' := by
  have texts := congrArg String.toList same
  rw [String.toList_append, String.toList_append, toList_labelsSuffix,
    toList_labelsSuffix] at texts
  have names := String.toList_inj.mp (eq_of_cut plain plain' texts).1
  subst names
  have suffixes := List.append_cancel_left texts
  rw [← toList_labelsSuffix, ← toList_labelsSuffix] at suffixes
  exact ⟨rfl, String.toList_inj.mp suffixes⟩

/-! ## Declarations and calls -/

/-- An argument goes to a parameter: under its label, or without one where it has none. -/
inductive Arg.GoesTo : Param → Arg → Prop
  | labelled {param : Param} {label : Ident} {value : Expr} (same : label.name = param.labelName) :
      GoesTo param (.mk (some label) value)
  | unlabelled {param : Param} {value : Expr} (blank : param.labelName = noLabel) :
      GoesTo param (.mk none value)

theorem Arg.GoesTo.labelName {param : Param} {arg : Arg} (h : Arg.GoesTo param arg) :
    arg.labelName = param.labelName := by
  cases h with
  | labelled same => exact same
  | unlabelled blank => exact blank.symm

/-- A call asks for the suffix that its function declares. -/
theorem suffix_of_goesTo {params : List Param} {args : List Arg}
    (h : List.Forall₂ Arg.GoesTo params args) : Arg.suffix args = Param.suffix params := by
  have labels : args.map Arg.labelName = params.map Param.labelName := by
    induction h with
    | nil => rfl
    | cons first _ ih => rw [List.map_cons, List.map_cons, first.labelName, ih]
  rw [Arg.suffix, labels, Param.suffix]

end NameResolution
