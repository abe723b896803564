import Mathlib.Data.List.Basic

/-! A file that is written, truncated and forced, and what an opening after a stop finds of it. -/

namespace GeneralSearch.Lib

/-- A file: what its readers see, how much of the beginning of that is on the disk and has not been
written over since, and whether its name is on the disk. -/
structure File (α : Type) where
  content : List α
  settled : ℕ
  linked : Bool
  deriving DecidableEq

namespace File

variable {α : Type}

def created : File α := ⟨[], 0, false⟩

def truncate (f : File α) (size : ℕ) : File α :=
  { f with content := f.content.take size, settled := min f.settled size }

def append (f : File α) (a : α) : File α := { f with content := f.content ++ [a] }

def force (f : File α) : File α := { f with settled := f.content.length }

def link (f : File α) : File α := { f with linked := true }

/-- What an opening finds: of a linked file the settled beginning with anything behind it, of one
that is not linked perhaps nothing.  What is found is on the disk. -/
inductive Survives : Option (File α) → Option (File α) → Prop where
  | kept {f : File α} {content : List α} (h : f.content.take f.settled <+: content) :
      Survives (some f) (some ⟨content, content.length, true⟩)
  | lost {f : File α} (h : f.linked = false) : Survives (some f) none
  | absent : Survives none none

/-- What a stop leaves of a file that was written at its end only: what was forced, and a beginning of
what stood behind it.  It is on the disk. -/
structure Torn (f g : File α) : Prop where
  forced : f.content.take f.settled <+: g.content
  written : g.content <+: f.content
  found : g = ⟨g.content, g.content.length, true⟩

/-- The file begins with `kept`, and no stop takes that away. -/
structure Keeps (f : File α) (kept : List α) : Prop where
  linked : f.linked = true
  settled : kept.length ≤ f.settled
  begins : kept <+: f.content

namespace Keeps

variable {f : File α} {kept : List α}

theorem truncate {size : ℕ} (h : f.Keeps kept) (hsize : kept.length ≤ size) :
    (f.truncate size).Keeps kept where
  linked := h.linked
  settled := Nat.le_min.mpr ⟨h.settled, hsize⟩
  begins := List.prefix_take_iff.mpr ⟨h.begins, hsize⟩

theorem append (h : f.Keeps kept) (a : α) : (f.append a).Keeps kept :=
  ⟨h.linked, h.settled, h.begins.trans (List.prefix_append _ _)⟩

theorem force (h : f.Keeps kept) : f.force.Keeps kept :=
  ⟨h.linked, h.begins.length_le, h.begins⟩

theorem link (h : f.Keeps kept) : f.link.Keeps kept := ⟨rfl, h.settled, h.begins⟩

theorem mono {less : List α} (h : f.Keeps kept) (hless : less <+: kept) : f.Keeps less :=
  ⟨h.linked, Nat.le_trans hless.length_le h.settled, hless.trans h.begins⟩

/-- What a file keeps is found again. -/
theorem survives {g : Option (File α)} (h : f.Keeps kept) (hg : Survives (some f) g) :
    ∃ f', g = some f' ∧ f'.Keeps kept := by
  cases hg with
  | kept hcontent =>
    have hbegins := (List.prefix_take_iff.mpr ⟨h.begins, h.settled⟩).trans hcontent
    exact ⟨_, rfl, rfl, hbegins.length_le, hbegins⟩
  | lost hlost =>
    rw [h.linked] at hlost
    cases hlost

end Keeps

end File

end GeneralSearch.Lib
