import Mathlib.Data.List.Basic
import Mathlib.Tactic.Common

/-! Association lists in the strict order of a comparator.  `replaceEntry` and `eraseEntry` keep the
order, and a lookup after them is that of the updated function.  A key is found by comparing, so
keys that compare as equal are one key. -/

namespace GeneralSearch.Lib

variable {K V : Type} (compareTo : K → K → Ordering)

/-- The keys increase strictly. -/
def Sorted (entries : List (K × V)) : Prop :=
  entries.Pairwise fun a b => compareTo a.1 b.1 = .lt

/-- The value of the first entry whose key compares as equal. -/
def lookup (key : K) : List (K × V) → Option V
  | [] => none
  | entry :: entries => if compareTo key entry.1 = .eq then some entry.2 else lookup key entries

/-- The list with `key` at `update`, which gets the value that was there; a key that compares as
equal stays. -/
def replaceEntry (key : K) (update : Option V → V) : List (K × V) → List (K × V)
  | [] => [(key, update none)]
  | entry :: entries =>
    match compareTo key entry.1 with
    | .eq => (entry.1, update (some entry.2)) :: entries
    | .lt => (key, update none) :: entry :: entries
    | .gt => entry :: replaceEntry key update entries

/-- The list without the entry at `key`. -/
def eraseEntry (key : K) : List (K × V) → List (K × V)
  | [] => []
  | entry :: entries =>
    match compareTo key entry.1 with
    | .eq => entries
    | .lt => entry :: entries
    | .gt => entry :: eraseEntry key entries

variable {compareTo} {key : K} {update : Option V → V} {entry : K × V}
  {left right entries : List (K × V)}

theorem sorted_cons :
    Sorted compareTo (entry :: entries) ↔
      (∀ e ∈ entries, compareTo entry.1 e.1 = .lt) ∧ Sorted compareTo entries :=
  List.pairwise_cons

/-- The key of every entry after an update is a key from before or the one that was put. -/
theorem mem_replaceEntry {e : K × V} (h : e ∈ replaceEntry compareTo key update entries) :
    e.1 = key ∨ ∃ e' ∈ entries, e'.1 = e.1 := by
  induction entries with
  | nil =>
    rw [replaceEntry, List.mem_singleton] at h
    exact .inl (by rw [h])
  | cons head tail ih =>
    unfold replaceEntry at h
    split at h
    · obtain rfl | htail := List.mem_cons.mp h
      · exact .inr ⟨head, by simp, rfl⟩
      · exact .inr ⟨e, by simp [htail], rfl⟩
    · obtain rfl | hrest := List.mem_cons.mp h
      · exact .inl rfl
      · exact .inr ⟨e, hrest, rfl⟩
    · obtain rfl | htail := List.mem_cons.mp h
      · exact .inr ⟨e, by simp, rfl⟩
      · exact (ih htail).imp_right fun ⟨e', he', hkey⟩ => ⟨e', by simp [he'], hkey⟩

theorem eraseEntry_sublist : (eraseEntry compareTo key entries).Sublist entries := by
  induction entries with
  | nil => exact .slnil
  | cons head tail ih =>
    unfold eraseEntry
    split
    · exact List.sublist_cons_self head tail
    · exact .refl _
    · exact ih.cons_cons head

theorem Sorted.eraseEntry (h : Sorted compareTo entries) :
    Sorted compareTo (eraseEntry compareTo key entries) :=
  List.Pairwise.sublist eraseEntry_sublist h

/-- Everything before a smaller key stays as it is. -/
theorem replaceEntry_append (h : ∀ e ∈ left, compareTo key e.1 = .gt) :
    replaceEntry compareTo key update (left ++ right) =
      left ++ replaceEntry compareTo key update right := by
  induction left with
  | nil => rfl
  | cons head tail ih =>
    rw [List.cons_append, replaceEntry, h head (by simp), List.cons_append]
    exact congrArg _ (ih fun e he => h e (by simp [he]))

theorem eraseEntry_append (h : ∀ e ∈ left, compareTo key e.1 = .gt) :
    eraseEntry compareTo key (left ++ right) = left ++ eraseEntry compareTo key right := by
  induction left with
  | nil => rfl
  | cons head tail ih =>
    rw [List.cons_append, eraseEntry, h head (by simp), List.cons_append]
    exact congrArg _ (ih fun e he => h e (by simp [he]))

theorem lookup_append (h : ∀ e ∈ left, compareTo key e.1 = .gt) :
    lookup compareTo key (left ++ right) = lookup compareTo key right := by
  induction left with
  | nil => rfl
  | cons head tail ih =>
    rw [List.cons_append, lookup, if_neg (by rw [h head (by simp)]; decide)]
    exact ih fun e he => h e (by simp [he])

/-- The update at a key that is there. -/
theorem replaceEntry_append_cons_eq (h : ∀ e ∈ left, compareTo key e.1 = .gt)
    (hkey : compareTo key entry.1 = .eq) :
    replaceEntry compareTo key update (left ++ entry :: right) =
      left ++ (entry.1, update (some entry.2)) :: right := by
  rw [replaceEntry_append h, replaceEntry, hkey]

theorem replaceEntry_append_cons_gt (h : ∀ e ∈ left, compareTo key e.1 = .gt)
    (hkey : compareTo key entry.1 = .gt) :
    replaceEntry compareTo key update (left ++ entry :: right) =
      left ++ entry :: replaceEntry compareTo key update right := by
  rw [replaceEntry_append h, replaceEntry, hkey]

theorem eraseEntry_append_cons_eq (h : ∀ e ∈ left, compareTo key e.1 = .gt)
    (hkey : compareTo key entry.1 = .eq) :
    eraseEntry compareTo key (left ++ entry :: right) = left ++ right := by
  rw [eraseEntry_append h, eraseEntry, hkey]

theorem eraseEntry_append_cons_gt (h : ∀ e ∈ left, compareTo key e.1 = .gt)
    (hkey : compareTo key entry.1 = .gt) :
    eraseEntry compareTo key (left ++ entry :: right) =
      left ++ entry :: eraseEntry compareTo key right := by
  rw [eraseEntry_append h, eraseEntry, hkey]

/-- Everything from a greater key on stays as it is. -/
theorem replaceEntry_append_cons_lt (h : compareTo key entry.1 = .lt) :
    replaceEntry compareTo key update (left ++ entry :: right) =
      replaceEntry compareTo key update left ++ entry :: right := by
  induction left with
  | nil => simp [replaceEntry, h]
  | cons head tail ih =>
    rw [List.cons_append]
    unfold replaceEntry
    cases compareTo key head.1 with
    | eq => rfl
    | lt => rfl
    | gt => exact congrArg _ ih

theorem eraseEntry_append_cons_lt (h : compareTo key entry.1 = .lt) :
    eraseEntry compareTo key (left ++ entry :: right) =
      eraseEntry compareTo key left ++ entry :: right := by
  induction left with
  | nil => simp [eraseEntry, h]
  | cons head tail ih =>
    rw [List.cons_append]
    unfold eraseEntry
    cases compareTo key head.1 with
    | eq => rfl
    | lt => rfl
    | gt => exact congrArg _ ih

open Std

variable [TransCmp compareTo]

theorem Sorted.replaceEntry (h : Sorted compareTo entries) :
    Sorted compareTo (replaceEntry compareTo key update entries) := by
  induction entries with
  | nil => exact List.pairwise_singleton _ _
  | cons head tail ih =>
    obtain ⟨hhead, htail⟩ := sorted_cons.mp h
    unfold Lib.replaceEntry
    split
    · exact sorted_cons.mpr ⟨hhead, htail⟩
    · next hlt =>
      refine sorted_cons.mpr ⟨fun e he => ?_, h⟩
      obtain rfl | he := List.mem_cons.mp he
      · exact hlt
      · exact TransCmp.lt_trans hlt (hhead e he)
    · next hgt =>
      refine sorted_cons.mpr ⟨fun e he => ?_, ih htail⟩
      obtain hkey | ⟨e', he', hkey⟩ := mem_replaceEntry he
      · rw [hkey]
        exact OrientedCmp.lt_of_gt hgt
      · rw [← hkey]
        exact hhead e' he'

/-- A key at or below the head of a sorted list is not behind it. -/
theorem lookup_eq_none_of_le {other : K} (h : ∀ e ∈ entries, compareTo other e.1 = .lt)
    (hkey : compareTo key other ≠ .gt) : lookup compareTo key entries = none := by
  induction entries with
  | nil => rfl
  | cons head tail ih =>
    have hlt : compareTo key head.1 = .lt := by
      cases hc : compareTo key other with
      | lt => exact TransCmp.lt_trans hc (h head (by simp))
      | eq => exact TransCmp.lt_of_eq_of_lt hc (h head (by simp))
      | gt => exact absurd hc hkey
    rw [lookup, if_neg (by rw [hlt]; decide)]
    exact ih fun e he => h e (by simp [he])

/-- Behind a greater key there is nothing to find. -/
theorem lookup_append_cons_lt (h : compareTo key entry.1 = .lt)
    (hright : ∀ e ∈ right, compareTo entry.1 e.1 = .lt) :
    lookup compareTo key (left ++ entry :: right) = lookup compareTo key left := by
  have hkey : compareTo key entry.1 ≠ .gt := by
    rw [h]
    decide
  induction left with
  | nil =>
    rw [lookup, List.nil_append, lookup, if_neg (by rw [h]; decide)]
    exact lookup_eq_none_of_le hright hkey
  | cons head tail ih => rw [List.cons_append, lookup, lookup, ih]

/-- A lookup in a sorted list finds the entry whose key compares as equal. -/
theorem lookup_eq_some_iff (h : Sorted compareTo entries) {value : V} :
    lookup compareTo key entries = some value ↔
      ∃ k, (k, value) ∈ entries ∧ compareTo key k = .eq := by
  induction entries with
  | nil => simp [lookup]
  | cons head tail ih =>
    obtain ⟨hhead, htail⟩ := sorted_cons.mp h
    rw [lookup]
    by_cases hkey : compareTo key head.1 = .eq
    · rw [if_pos hkey, Option.some.injEq]
      constructor
      · rintro rfl
        exact ⟨head.1, by simp, hkey⟩
      · rintro ⟨k, hk, hkey'⟩
        obtain rfl | hk := List.mem_cons.mp hk
        · rfl
        · have hlt := hhead _ hk
          rw [TransCmp.congr_left (OrientedCmp.eq_symm hkey), hkey'] at hlt
          cases hlt
    · rw [if_neg hkey, ih htail]
      refine exists_congr fun k => and_congr_left fun hkey' => ?_
      rw [List.mem_cons, or_iff_right]
      rintro rfl
      exact hkey hkey'

/-- An update is seen at its own key and nowhere else. -/
theorem lookup_replaceEntry (h : Sorted compareTo entries) {other : K} :
    lookup compareTo other (replaceEntry compareTo key update entries) =
      if compareTo other key = .eq then some (update (lookup compareTo key entries))
      else lookup compareTo other entries := by
  induction entries with
  | nil => simp [replaceEntry, lookup]
  | cons head tail ih =>
    obtain ⟨hhead, htail⟩ := sorted_cons.mp h
    unfold replaceEntry
    cases hc : compareTo key head.1 with
    | eq =>
      simp only [lookup]
      rw [if_pos hc, ← TransCmp.congr_right hc]
      by_cases ho : compareTo other key = .eq
      · rw [if_pos ho, if_pos ho]
      · rw [if_neg ho, if_neg ho, if_neg ho]
    | lt =>
      have hnone : lookup compareTo key (head :: tail) = none := by
        rw [lookup, if_neg (by rw [hc]; decide)]
        exact lookup_eq_none_of_le hhead (by rw [hc]; decide)
      rw [hnone, lookup]
    | gt =>
      have hskip : lookup compareTo key (head :: tail) = lookup compareTo key tail := by
        rw [lookup, if_neg (by rw [hc]; decide)]
      rw [lookup, ih htail, hskip, lookup]
      by_cases ho : compareTo other key = .eq
      · rw [if_pos ho, if_pos ho, if_neg (by rw [TransCmp.congr_left ho, hc]; decide)]
      · rw [if_neg ho, if_neg ho]

/-- A removal is seen at its own key and nowhere else. -/
theorem lookup_eraseEntry (h : Sorted compareTo entries) {other : K} :
    lookup compareTo other (eraseEntry compareTo key entries) =
      if compareTo other key = .eq then none else lookup compareTo other entries := by
  induction entries with
  | nil => simp [eraseEntry, lookup]
  | cons head tail ih =>
    obtain ⟨hhead, htail⟩ := sorted_cons.mp h
    unfold eraseEntry
    cases hc : compareTo key head.1 with
    | eq =>
      rw [lookup, ← TransCmp.congr_right hc]
      by_cases ho : compareTo other key = .eq
      · rw [if_pos ho]
        have hle : compareTo other head.1 ≠ .gt := by
          rw [TransCmp.congr_left ho, hc]
          decide
        exact lookup_eq_none_of_le hhead hle
      · rw [if_neg ho, if_neg ho]
    | lt =>
      by_cases ho : compareTo other key = .eq
      · have hlt : compareTo other head.1 = .lt := by rw [TransCmp.congr_left ho, hc]
        rw [if_pos ho, lookup, if_neg (by rw [hlt]; decide)]
        exact lookup_eq_none_of_le hhead (by rw [hlt]; decide)
      · rw [if_neg ho]
    | gt =>
      rw [lookup, ih htail, lookup]
      by_cases ho : compareTo other key = .eq
      · rw [if_pos ho, if_pos ho, if_neg (by rw [TransCmp.congr_left ho, hc]; decide)]
      · rw [if_neg ho, if_neg ho]

/-- Sorted lists with the same lookups have the same values under keys that compare as equal. -/
theorem Sorted.forall₂ {others : List (K × V)} (h : Sorted compareTo entries)
    (h' : Sorted compareTo others)
    (hlookup : ∀ key, lookup compareTo key entries = lookup compareTo key others) :
    List.Forall₂ (fun e e' => compareTo e.1 e'.1 = .eq ∧ e.2 = e'.2) entries others := by
  have hself : ∀ e : K × V, ∀ rest, lookup compareTo e.1 (e :: rest) = some e.2 := fun e rest => by
    rw [lookup, if_pos ReflCmp.compare_self]
  induction entries generalizing others with
  | nil =>
    cases others with
    | nil => exact .nil
    | cons e' others =>
      have hnone := hlookup e'.1
      rw [hself] at hnone
      cases hnone
  | cons e entries ih =>
    cases others with
    | nil =>
      have hnone := hlookup e.1
      rw [hself] at hnone
      cases hnone
    | cons e' others =>
      obtain ⟨hhead, htail⟩ := sorted_cons.mp h
      obtain ⟨hhead', htail'⟩ := sorted_cons.mp h'
      have hkey : compareTo e.1 e'.1 = .eq := by
        cases hc : compareTo e.1 e'.1 with
        | eq => rfl
        | lt =>
          have hfound := hlookup e.1
          rw [hself, lookup, if_neg (by rw [hc]; decide),
            lookup_eq_none_of_le hhead' (by rw [hc]; decide)] at hfound
          cases hfound
        | gt =>
          have hc' : compareTo e'.1 e.1 = .lt := OrientedCmp.lt_of_gt hc
          have hfound := hlookup e'.1
          rw [hself, lookup, if_neg (by rw [hc']; decide),
            lookup_eq_none_of_le hhead (by rw [hc']; decide)] at hfound
          cases hfound
      have hvalue := hlookup e.1
      rw [hself, lookup, if_pos hkey] at hvalue
      refine .cons ⟨hkey, Option.some.inj hvalue⟩ (ih htail htail' fun key => ?_)
      by_cases heq : compareTo key e.1 = .eq
      · have heq' : compareTo key e'.1 = .eq := TransCmp.eq_trans heq hkey
        rw [lookup_eq_none_of_le hhead (by rw [heq]; decide),
          lookup_eq_none_of_le hhead' (by rw [heq']; decide)]
      · have heq' : compareTo key e'.1 ≠ .eq := by rwa [← TransCmp.congr_right hkey]
        have hrest := hlookup key
        rw [lookup, if_neg heq, lookup, if_neg heq'] at hrest
        exact hrest

/-! ### Lists in any order

Keys are one key when `same` says so; nothing depends on the order of the entries. -/

section

variable {same : K → K → Bool}

/-- The value of the first entry with the same key. -/
def find (same : K → K → Bool) (key : K) : List (K × V) → Option V
  | [] => none
  | entry :: entries => if same key entry.1 then some entry.2 else find same key entries

/-- The list with a value at `key`, behind the others when the key is new. -/
def storeEntry (same : K → K → Bool) (key : K) (value : V) : List (K × V) → List (K × V)
  | [] => [(key, value)]
  | entry :: entries =>
    if same key entry.1 then (entry.1, value) :: entries
    else entry :: storeEntry same key value entries

/-- No key is there twice. -/
def Distinct (same : K → K → Bool) (entries : List (K × V)) : Prop :=
  entries.Pairwise fun a b => same a.1 b.1 = false

theorem mem_storeEntry {value : V} {e : K × V} (h : e ∈ storeEntry same key value entries) :
    e.1 = key ∨ ∃ e' ∈ entries, e'.1 = e.1 := by
  induction entries with
  | nil => exact .inl (by rw [List.mem_singleton.mp h])
  | cons head tail ih =>
    rw [storeEntry] at h
    split at h
    · rcases List.mem_cons.mp h with rfl | h
      · exact .inr ⟨head, List.mem_cons_self, rfl⟩
      · exact .inr ⟨e, List.mem_cons_of_mem _ h, rfl⟩
    · rcases List.mem_cons.mp h with rfl | h
      · exact .inr ⟨e, List.mem_cons_self, rfl⟩
      · obtain hkey | ⟨e', he', hsame⟩ := ih h
        · exact .inl hkey
        · exact .inr ⟨e', List.mem_cons_of_mem _ he', hsame⟩

variable (hsame : Equivalence fun a b => same a b = true)

include hsame

theorem same_congr {other : K} (h : same key other = true) (k : K) : same key k = same other k :=
  Bool.eq_iff_iff.mpr ⟨hsame.trans (hsame.symm h), hsame.trans h⟩

theorem same_comm {other : K} : same key other = same other key :=
  Bool.eq_iff_iff.mpr ⟨hsame.symm, hsame.symm⟩

theorem find_storeEntry {other : K} {value : V} :
    find same other (storeEntry same key value entries) =
      if same other key then some value else find same other entries := by
  induction entries with
  | nil => rfl
  | cons head tail ih =>
    rw [storeEntry]
    by_cases hkey : same key head.1 = true
    · have hother : same other head.1 = same other key := by
        rw [same_comm hsame, ← same_congr hsame hkey, same_comm hsame]
      rw [if_pos hkey, find, find, hother]
      by_cases ho : same other key = true
      · rw [if_pos ho, if_pos ho]
      · rw [if_neg ho, if_neg ho, if_neg ho]
    · rw [if_neg hkey, find, ih, find]
      by_cases ho : same other key = true
      · rw [if_pos ho, if_pos ho, if_neg (by rwa [same_congr hsame ho])]
      · rw [if_neg ho, if_neg ho]

/-- A key that the others are distinct from is not among them. -/
theorem find_eq_none {other : K} (h : ∀ e ∈ entries, same other e.1 = false)
    (hkey : same key other = true) : find same key entries = none := by
  induction entries with
  | nil => rfl
  | cons head tail ih =>
    rw [find, same_congr hsame hkey, h head List.mem_cons_self]
    exact ih fun e he => h e (List.mem_cons_of_mem _ he)

theorem Distinct.storeEntry {value : V} (h : Distinct same entries) :
    Distinct same (storeEntry same key value entries) := by
  induction entries with
  | nil => exact List.pairwise_singleton _ _
  | cons head tail ih =>
    obtain ⟨hhead, htail⟩ := List.pairwise_cons.mp h
    rw [Lib.storeEntry]
    split
    · exact List.pairwise_cons.mpr ⟨hhead, htail⟩
    · rename_i hkey
      refine List.pairwise_cons.mpr ⟨fun e he => ?_, ih htail⟩
      obtain hnew | ⟨e', he', hold⟩ := mem_storeEntry he
      · rw [hnew, same_comm hsame]
        exact Bool.eq_false_iff.mpr hkey
      · rw [← hold]
        exact hhead e' he'

theorem Distinct.find_eq_some_iff {value : V} (h : Distinct same entries) :
    find same key entries = some value ↔ ∃ k, (k, value) ∈ entries ∧ same key k = true := by
  induction entries with
  | nil => simp [find]
  | cons head tail ih =>
    obtain ⟨hhead, htail⟩ := List.pairwise_cons.mp h
    rw [find]
    by_cases hkey : same key head.1 = true
    · rw [if_pos hkey, Option.some.injEq]
      constructor
      · rintro rfl
        exact ⟨head.1, by simp, hkey⟩
      · rintro ⟨k, hk, hkey'⟩
        obtain rfl | hk := List.mem_cons.mp hk
        · rfl
        · have hne := hhead _ hk
          rw [← same_congr hsame hkey, hkey'] at hne
          cases hne
    · rw [if_neg hkey, ih htail]
      refine exists_congr fun k => and_congr_left fun hkey' => ?_
      rw [List.mem_cons, or_iff_right]
      rintro rfl
      exact hkey hkey'

/-- The order of the entries does not matter. -/
theorem Distinct.find_perm {others : List (K × V)} (h : Distinct same entries)
    (hperm : others.Perm entries) : find same key others = find same key entries := by
  have h' : Distinct same others :=
    (hperm.pairwise_iff fun hne => (same_comm hsame).trans hne).mpr h
  refine Option.ext fun value => ?_
  rw [h.find_eq_some_iff hsame, h'.find_eq_some_iff hsame]
  exact exists_congr fun k => and_congr_left fun _ => hperm.mem_iff

end

end GeneralSearch.Lib
