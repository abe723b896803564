import Mathlib.Data.List.Basic
import Mathlib.Order.Lattice.Nat
import Mathlib.Tactic.Common

/-! Optimal string alignment: the edit distance of two lists under insertion, deletion, substitution
and the transposition of neighbours, where nothing that was transposed is edited again. -/

namespace GeneralSearch.Lib

variable {α : Type}

/-- An alignment of two lists and its cost. -/
inductive Alignment : List α → List α → ℕ → Prop
  | nil : Alignment [] [] 0
  | keep {a b : List α} {n : ℕ} (x : α) : Alignment a b n → Alignment (x :: a) (x :: b) n
  | insert {a b : List α} {n : ℕ} (y : α) : Alignment a b n → Alignment a (y :: b) (n + 1)
  | delete {a b : List α} {n : ℕ} (x : α) : Alignment a b n → Alignment (x :: a) b (n + 1)
  | substitute {a b : List α} {n : ℕ} (x y : α) :
      Alignment a b n → Alignment (x :: a) (y :: b) (n + 1)
  | transpose {a b : List α} {n : ℕ} (x y : α) :
      Alignment a b n → Alignment (x :: y :: a) (y :: x :: b) (n + 1)

namespace Alignment

variable {a b c d : List α} {n m : ℕ}

theorem symm (h : Alignment a b n) : Alignment b a n := by
  induction h with
  | nil => exact nil
  | keep x _ ih => exact ih.keep x
  | insert y _ ih => exact ih.delete y
  | delete x _ ih => exact ih.insert x
  | substitute x y _ ih => exact ih.substitute y x
  | transpose x y _ ih => exact ih.transpose y x

theorem append (h : Alignment a b n) (h' : Alignment c d m) :
    Alignment (a ++ c) (b ++ d) (n + m) := by
  induction h with
  | nil => simpa using h'
  | keep x _ ih => exact ih.keep x
  | insert y _ ih => simpa [Nat.add_right_comm] using ih.insert y
  | delete x _ ih => simpa [Nat.add_right_comm] using ih.delete x
  | substitute x y _ ih => simpa [Nat.add_right_comm] using ih.substitute x y
  | transpose x y _ ih => simpa [Nat.add_right_comm] using ih.transpose x y

/-- An alignment is one of the lists from their ends, too. -/
theorem reverse (h : Alignment a b n) : Alignment a.reverse b.reverse n := by
  induction h with
  | nil => exact nil
  | keep x _ ih => simpa using ih.append (nil.keep x)
  | insert y _ ih => simpa using ih.append (nil.insert y)
  | delete x _ ih => simpa using ih.append (nil.delete x)
  | substitute x y _ ih => simpa using ih.append (nil.substitute x y)
  | transpose x y _ ih => simpa using ih.append (nil.transpose y x)

theorem refl (a : List α) : Alignment a a 0 := by
  induction a with
  | nil => exact nil
  | cons x a ih => exact ih.keep x

/-- Everything is deleted and inserted. -/
theorem exists_cost (a b : List α) : Alignment a b (a.length + b.length) := by
  induction a with
  | nil =>
    induction b with
    | nil => exact nil
    | cons y b ih => simpa [Nat.add_assoc] using ih.insert y
  | cons x a ih => simpa [Nat.add_right_comm] using ih.delete x

/-- Every edit changes the lengths by one at most. -/
theorem length_le (h : Alignment a b n) : a.length ≤ b.length + n ∧ b.length ≤ a.length + n := by
  induction h <;> simp only [List.length_cons, List.length_nil] <;> omega

theorem eq_of_zero (h : Alignment a b 0) : a = b := by
  generalize hn : 0 = n at h
  induction h with
  | nil => rfl
  | keep x _ ih => rw [ih hn]
  | insert | delete | substitute | transpose => omega

/-- What is left of an alignment when the first element is taken away: the rest is aligned with an
end of the other list, at no higher cost. -/
theorem tail {x : α} (h : Alignment (x :: a) b n) : ∃ b' m, b' <:+ b ∧ m ≤ n ∧ Alignment a b' m := by
  generalize hlist : x :: a = whole at h
  induction h with
  | nil => cases hlist
  | keep x' hrest _ =>
    cases hlist
    exact ⟨_, _, List.suffix_cons _ _, le_rfl, hrest⟩
  | insert y _ ih =>
    obtain ⟨b', m, hsuffix, hle, hrest⟩ := ih hlist
    exact ⟨b', m, hsuffix.trans (List.suffix_cons _ _), by omega, hrest⟩
  | delete x' hrest _ =>
    cases hlist
    exact ⟨_, _, List.suffix_rfl, by omega, hrest⟩
  | substitute x' y hrest _ =>
    cases hlist
    exact ⟨_, _, List.suffix_cons _ _, by omega, hrest⟩
  | transpose x' y hrest _ =>
    cases hlist
    exact ⟨_, _, (List.suffix_cons _ _).trans (List.suffix_cons _ _), le_rfl, hrest.delete y⟩

end Alignment

/-- The least cost of an alignment. -/
noncomputable def osa (a b : List α) : ℕ := sInf {n | Alignment a b n}

section

variable {a b : List α} {x y : α}

theorem osa_alignment (a b : List α) : Alignment a b (osa a b) :=
  Nat.sInf_mem (s := {n | Alignment a b n}) ⟨_, Alignment.exists_cost a b⟩

theorem osa_le {n : ℕ} (h : Alignment a b n) : osa a b ≤ n := Nat.sInf_le h

theorem osa_comm (a b : List α) : osa a b = osa b a :=
  le_antisymm (osa_le (osa_alignment b a).symm) (osa_le (osa_alignment a b).symm)

theorem osa_reverse (a b : List α) : osa a.reverse b.reverse = osa a b := by
  refine le_antisymm (osa_le (osa_alignment a b).reverse) (osa_le ?_)
  have h := (osa_alignment a.reverse b.reverse).reverse
  rwa [List.reverse_reverse, List.reverse_reverse] at h

theorem osa_eq_zero : osa a b = 0 ↔ a = b := by
  constructor
  · intro h
    exact (h ▸ osa_alignment a b).eq_of_zero
  · rintro rfl
    exact Nat.le_zero.mp (osa_le (Alignment.refl a))

theorem length_le_osa (a b : List α) :
    a.length ≤ b.length + osa a b ∧ b.length ≤ a.length + osa a b :=
  (osa_alignment a b).length_le

theorem osa_nil_left (b : List α) : osa [] b = b.length := by
  have hle := osa_le (Alignment.exists_cost ([] : List α) b)
  have hge := (length_le_osa [] b).2
  simp only [List.length_nil] at hle hge
  omega

theorem osa_nil_right (a : List α) : osa a [] = a.length := by
  rw [osa_comm, osa_nil_left]

theorem osa_cons_left_le : osa (x :: a) b ≤ osa a b + 1 := osa_le ((osa_alignment a b).delete x)

theorem osa_cons_right_le : osa a (y :: b) ≤ osa a b + 1 := osa_le ((osa_alignment a b).insert y)

theorem osa_cons_cons_le [DecidableEq α] :
    osa (x :: a) (y :: b) ≤ osa a b + if x = y then 0 else 1 := by
  split
  · rename_i heq
    subst heq
    exact osa_le ((osa_alignment a b).keep x)
  · exact osa_le ((osa_alignment a b).substitute x y)

theorem osa_swap_le : osa (x :: y :: a) (y :: x :: b) ≤ osa a b + 1 :=
  osa_le ((osa_alignment a b).transpose x y)

/-- The last edit of a best alignment, in the order in which a table of distances is filled. -/
theorem osa_cons_cons_cases [DecidableEq α] (x y : α) (a b : List α) :
    osa (x :: a) (y :: b) = osa a (y :: b) + 1 ∨ osa (x :: a) (y :: b) = osa (x :: a) b + 1 ∨
      osa (x :: a) (y :: b) = osa a b + (if x = y then 0 else 1) ∨
      ∃ a' b', a = y :: a' ∧ b = x :: b' ∧ osa (x :: a) (y :: b) = osa a' b' + 1 := by
  have hdelete : osa (x :: a) (y :: b) ≤ osa a (y :: b) + 1 := osa_cons_left_le
  have hinsert : osa (x :: a) (y :: b) ≤ osa (x :: a) b + 1 := osa_cons_right_le
  have hsubstitute : osa (x :: a) (y :: b) ≤ osa a b + if x = y then 0 else 1 := osa_cons_cons_le
  have h := osa_alignment (x :: a) (y :: b)
  generalize hn : osa (x :: a) (y :: b) = n at *
  generalize hleft : x :: a = left at h
  generalize hright : y :: b = right at h
  cases h with
  | nil => cases hleft
  | keep z hrest =>
    cases hleft
    cases hright
    simp only [if_true] at hsubstitute ⊢
    exact .inr (.inr (.inl (by have := osa_le hrest; omega)))
  | insert y' hrest =>
    cases hright
    subst hleft
    exact .inr (.inl (by have := osa_le hrest; omega))
  | delete x' hrest =>
    cases hleft
    subst hright
    exact .inl (by have := osa_le hrest; omega)
  | substitute x' y' hrest =>
    cases hleft
    cases hright
    refine .inr (.inr (.inl ?_))
    have := osa_le hrest
    by_cases heq : x = y
    · simp only [heq, if_true] at hsubstitute ⊢
      omega
    · simp only [heq, if_false] at hsubstitute ⊢
      omega
  | transpose x' y' hrest =>
    cases hleft
    cases hright
    have hswap := hn ▸ osa_swap_le
    exact .inr (.inr (.inr ⟨_, _, rfl, rfl, by have := osa_le hrest; omega⟩))

/-- A list that is longer at its front has no end of the other list nearer to it. -/
theorem exists_osa_le (x : α) (a b : List α) : ∃ b', b' <:+ b ∧ osa a b' ≤ osa (x :: a) b := by
  obtain ⟨b', m, hsuffix, hle, hrest⟩ := (osa_alignment (x :: a) b).tail
  exact ⟨b', hsuffix, (osa_le hrest).trans hle⟩

end

end GeneralSearch.Lib
