import Mathlib.Data.List.Chain
import Mathlib.Data.List.Forall2
import Mathlib.Tactic.Common

/-! Greedy choice: where each of some steps has its values and a value has to be related to the one
before it, the nearest value at every step is as near as any other choice. -/

namespace GeneralSearch.Lib

variable {σ β : Type}

/-- One value for each step, in a chain from a given value on. -/
inductive Climb (r : β → β → Prop) (P : σ → β → Prop) : List σ → β → List β → Prop
  | nil (a : β) : Climb r P [] a []
  | cons {s : σ} {steps : List σ} {a b : β} {values : List β} :
      P s b → r a b → Climb r P steps b values → Climb r P (s :: steps) a (b :: values)

/-- One value for each step, in a chain. -/
def Ascent (r : β → β → Prop) (P : σ → β → Prop) (steps : List σ) (values : List β) : Prop :=
  List.Forall₂ P steps values ∧ values.IsChain r

/-- The choice for a step is a value that is nearest to the one before. -/
structure Nearest (r : β → β → Prop) (P : σ → β → Prop) (next : σ → β → Option β) (s : σ) :
    Prop where
  of_some : ∀ {a b}, next s a = some b → P s b ∧ r a b ∧ ∀ c, P s c → r a c → r b c
  of_none : ∀ {a}, next s a = none → ∀ c, P s c → ¬ r a c

/-- The choices from a value on, unless there is none for some step. -/
def greedy (next : σ → β → Option β) : List σ → β → Option (List β)
  | [], _ => some []
  | s :: steps, a => (next s a).bind fun b => (greedy next steps b).map (b :: ·)

section

variable {r : β → β → Prop} {P : σ → β → Prop} {next : σ → β → Option β} {steps : List σ}
  {a b : β} {values : List β}

theorem climb_iff :
    Climb r P steps a values ↔ List.Forall₂ P steps values ∧ (a :: values).IsChain r := by
  constructor
  · intro h
    induction h with
    | nil a => exact ⟨.nil, .singleton a⟩
    | cons hvalue hrelated _ ih => exact ⟨.cons hvalue ih.1, .cons_cons hrelated ih.2⟩
  · rintro ⟨hvalues, hchain⟩
    induction hvalues generalizing a with
    | nil => exact .nil a
    | cons hvalue _ ih =>
      obtain ⟨hrelated, hchain⟩ := List.isChain_cons_cons.mp hchain
      exact .cons hvalue hrelated (ih hchain)

/-- The choices are one way to go on. -/
theorem climb_of_greedy (hnext : ∀ s ∈ steps, Nearest r P next s)
    (h : greedy next steps a = some values) : Climb r P steps a values := by
  induction steps generalizing a values with
  | nil =>
    cases h
    exact .nil a
  | cons s steps ih =>
    obtain ⟨hfirst, hrest⟩ := List.forall_mem_cons.mp hnext
    obtain ⟨b, hb, h⟩ := Option.bind_eq_some_iff.mp h
    obtain ⟨others, hothers, rfl⟩ := Option.map_eq_some_iff.mp h
    obtain ⟨hvalue, hrelated, -⟩ := hfirst.of_some hb
    exact .cons hvalue hrelated (ih hrest hothers)

/-- Where there is a way to go on, the choices are another, and nearer at every step. -/
theorem exists_greedy [IsTrans β r] (hnext : ∀ s ∈ steps, Nearest r P next s) (hab : r a b)
    (h : Climb r P steps b values) :
    ∃ choices, greedy next steps a = some choices ∧ List.Forall₂ r choices values := by
  induction h generalizing a with
  | nil => exact ⟨[], rfl, .nil⟩
  | @cons s steps b c values hvalue hrelated _ ih =>
    obtain ⟨hfirst, hrest⟩ := List.forall_mem_cons.mp hnext
    have hac : r a c := IsTrans.trans a b c hab hrelated
    cases hchoice : next s a with
    | none => exact absurd hac (hfirst.of_none hchoice c hvalue)
    | some d =>
      have hdc := (hfirst.of_some hchoice).2.2 c hvalue hac
      obtain ⟨choices, hchoices, hnear⟩ := ih hrest hdc
      refine ⟨d :: choices, ?_, .cons hdc hnear⟩
      rw [greedy, hchoice, Option.bind_some, hchoices, Option.map_some]

/-- Lists that are related at every place are related at their ends. -/
theorem getLast_related {as bs : List β} (hstart : r a b) (h : List.Forall₂ r as bs) :
    r ((a :: as).getLast (List.cons_ne_nil a as)) ((b :: bs).getLast (List.cons_ne_nil b bs)) := by
  induction h generalizing a b with
  | nil => exact hstart
  | cons hhead _ ih =>
    rw [List.getLast_cons_cons, List.getLast_cons_cons]
    exact ih hhead

theorem forall₂_append_iff {before after : List σ} :
    List.Forall₂ P (before ++ after) values ↔ ∃ left right, values = left ++ right ∧
      List.Forall₂ P before left ∧ List.Forall₂ P after right := by
  constructor
  · intro h
    induction before generalizing values with
    | nil => exact ⟨[], values, rfl, .nil, h⟩
    | cons s before ih =>
      cases h with
      | cons hvalue h =>
        obtain ⟨left, right, rfl, hleft, hright⟩ := ih h
        exact ⟨_ :: left, right, rfl, .cons hvalue hleft, hright⟩
  · rintro ⟨left, right, rfl, hleft, hright⟩
    exact List.rel_append hleft hright

/-- An ascent through a step is two climbs from the value there, one of them backwards. -/
theorem ascent_through_iff {before after : List σ} {s : σ} :
    Ascent r P (before ++ s :: after) values ↔ ∃ left a right,
      values = left.reverse ++ a :: right ∧ P s a ∧
        Climb (fun b c => r c b) P before.reverse a left ∧ Climb r P after a right := by
  constructor
  · rintro ⟨hvalues, hchain⟩
    obtain ⟨left, rest, rfl, hleft, hrest⟩ := forall₂_append_iff.mp hvalues
    cases hrest with
    | @cons _ a _ right hvalue hright =>
      obtain ⟨hbefore, hafter⟩ := List.isChain_split.mp hchain
      refine ⟨left.reverse, a, right, by rw [List.reverse_reverse], hvalue,
        climb_iff.mpr ⟨List.rel_reverse hleft, ?_⟩, climb_iff.mpr ⟨hright, hafter⟩⟩
      rw [← List.isChain_reverse, List.reverse_cons, List.reverse_reverse]
      exact hbefore
  · rintro ⟨left, a, right, rfl, hvalue, hleft, hright⟩
    obtain ⟨hleft, hbefore⟩ := climb_iff.mp hleft
    obtain ⟨hright, hafter⟩ := climb_iff.mp hright
    rw [← List.isChain_reverse, List.reverse_cons] at hbefore
    refine ⟨forall₂_append_iff.mpr ⟨_, _, rfl, ?_, .cons hvalue hright⟩,
      List.isChain_split.mpr ⟨hbefore, hafter⟩⟩
    rw [← List.forall₂_reverse_iff, List.reverse_reverse]
    exact hleft

end

end GeneralSearch.Lib
