import GeneralSearch.Ranked.Input
import Mathlib.Algebra.Ring.Nat
import Mathlib.Algebra.Ring.Int.Defs

/-! Tokens with source ranges, and `OffsetTokenSequenceValidator`, which checks a list of them against
the text that they were taken from. -/

namespace GeneralSearch.Highlight

open GeneralSearch.Planner GeneralSearch.Ranked

/-- `OffsetAnalyzedToken`. -/
structure OffsetAnalyzedToken where
  term : JString
  positionIncrement : ℕ
  startOffset : ℕ
  endOffset : ℕ
  term_nonempty : term ≠ []
  range_nonempty : startOffset < endOffset
  deriving DecidableEq

/-- `Character.isHighSurrogate` and `Character.isLowSurrogate` on the two sides of a boundary. -/
def splitsSurrogatePair (source : JString) (boundary : ℕ) : Bool :=
  0 < boundary && boundary < source.length &&
    source[boundary - 1]?.any JChar.isHighSurrogate && source[boundary]?.any JChar.isLowSurrogate

theorem splitsSurrogatePair_zero (source : JString) : splitsSurrogatePair source 0 = false := rfl

theorem splitsSurrogatePair_length (source : JString) :
    splitsSurrogatePair source source.length = false := by
  simp [splitsSurrogatePair]

/-- A code unit is not both halves of a pair. -/
theorem JChar.not_low_of_high {u : JChar} (h : JChar.isHighSurrogate u = true) :
    JChar.isLowSurrogate u = false := by
  simp only [JChar.isHighSurrogate, JChar.isLowSurrogate, Bool.and_eq_true, Bool.and_eq_false_iff,
    decide_eq_true_eq, decide_eq_false_iff_not] at *
  omega

theorem splitsSurrogatePair_iff {source : JString} {boundary : ℕ} :
    splitsSurrogatePair source boundary = true ↔ ∃ high low, 0 < boundary ∧
      source[boundary - 1]? = some high ∧ source[boundary]? = some low ∧
      JChar.isHighSurrogate high = true ∧ JChar.isLowSurrogate low = true := by
  simp only [splitsSurrogatePair, Bool.and_eq_true, decide_eq_true_eq, Option.any_eq_true]
  constructor
  · rintro ⟨⟨⟨hpos, -⟩, high, hhigh, hishigh⟩, low, hlow, hislow⟩
    exact ⟨high, low, hpos, hhigh, hlow, hishigh, hislow⟩
  · rintro ⟨high, low, hpos, hhigh, hlow, hishigh, hislow⟩
    obtain ⟨hlt, -⟩ := List.getElem?_eq_some_iff.mp hlow
    exact ⟨⟨⟨hpos, hlt⟩, high, hhigh, hishigh⟩, low, hlow, hislow⟩

/-- Boundaries side by side do not both split a pair. -/
theorem not_splitsSurrogatePair_succ {source : JString} {boundary : ℕ}
    (h : splitsSurrogatePair source boundary = true) :
    splitsSurrogatePair source (boundary + 1) = false := by
  obtain ⟨high, low, -, -, hlow, -, hislow⟩ := splitsSurrogatePair_iff.mp h
  rw [Bool.eq_false_iff]
  intro hsplits
  obtain ⟨high', low', -, hhigh', -, hishigh', -⟩ := splitsSurrogatePair_iff.mp hsplits
  rw [Nat.add_sub_cancel, hlow] at hhigh'
  cases hhigh'
  rw [JChar.not_low_of_high hishigh'] at hislow
  cases hislow

theorem not_splitsSurrogatePair_pred {source : JString} {boundary : ℕ}
    (h : splitsSurrogatePair source boundary = true) :
    splitsSurrogatePair source (boundary - 1) = false := by
  obtain ⟨-, -, hpos, -⟩ := splitsSurrogatePair_iff.mp h
  rw [Bool.eq_false_iff]
  intro hsplits
  have hsucc := not_splitsSurrogatePair_succ hsplits
  rw [Nat.sub_add_cancel hpos, h] at hsucc
  cases hsucc

/-! ### The validator -/

/-- `OffsetTokenSequenceValidator.failure`. -/
def invalidOffsets (fieldName : String) (tokenIndex : Option ℕ) (message : String) : Failure :=
  .illegalArgument ("invalid offsets for text field '" ++ fieldName ++ "'" ++
    tokenIndex.elim "" (fun index => " at token " ++ toString index) ++ ": " ++ message)

/-- `if (condition) throw failure`. -/
def refuse (condition : Prop) [Decidable condition] (failure : Failure) : Except Failure Unit :=
  if condition then .error failure else .ok ()

@[simp] theorem refuse_eq_ok {condition : Prop} [Decidable condition] {failure : Failure}
    {u : Unit} : refuse condition failure = .ok u ↔ ¬ condition := by
  unfold refuse
  split <;> simp [*]

/-- The variables of the loop of `validate`. -/
structure Progress where
  logicalPosition : ℤ
  previousPosition : ℤ
  previousStart : ℤ
  previousEnd : ℤ
  deriving DecidableEq, Repr

/-- `validateRange`. -/
def validateRange (fieldName : String) (source : JString) (token : OffsetAnalyzedToken)
    (index : ℕ) : Except Failure Unit := do
  refuse (token.endOffset > source.length)
    (invalidOffsets fieldName (some index) "source range exceeds text length")
  refuse (splitsSurrogatePair source token.startOffset = true ∨
    splitsSurrogatePair source token.endOffset = true)
    (invalidOffsets fieldName (some index) "source range splits a surrogate pair")

/-- How the range of a token follows the one before. -/
def validateOrder (fieldName : String) (progress : Progress) (logicalPosition : ℤ)
    (token : OffsetAnalyzedToken) (index : ℕ) : Except Failure Unit :=
  if logicalPosition = progress.previousPosition then
    refuse (token.startOffset ≠ progress.previousStart ∨ token.endOffset ≠ progress.previousEnd)
      (invalidOffsets fieldName (some index) "same-position tokens must use the same source range")
  else if progress.previousPosition ≥ 0 then
    refuse (token.startOffset < progress.previousStart ∨ token.endOffset < progress.previousEnd)
      (invalidOffsets fieldName (some index)
        "later-position range boundaries must not move backward")
  else .ok ()

/-- One round of the loop of `validate`. -/
def validateToken (fieldName : String) (source : JString) (index : ℕ) (progress : Progress)
    (token : OffsetAnalyzedToken) : Except Failure Progress := do
  refuse (index = 0 ∧ token.positionIncrement = 0)
    (invalidOffsets fieldName (some index) "first positionIncrement must be positive")
  let logicalPosition := progress.logicalPosition + token.positionIncrement
  refuse (logicalPosition > 2147483647)
    (invalidOffsets fieldName (some index) "logical position overflow")
  validateRange fieldName source token index
  validateOrder fieldName progress logicalPosition token index
  return ⟨logicalPosition, logicalPosition, token.startOffset, token.endOffset⟩

/-- The loop of `validate`. -/
def validateFrom (fieldName : String) (source : JString) :
    ℕ → Progress → List (Option OffsetAnalyzedToken) → Except Failure (List OffsetAnalyzedToken)
  | _, _, [] => .ok []
  | index, _, none :: _ =>
    .error (invalidOffsets fieldName (some index) "token must not be null")
  | index, progress, some token :: rest => do
    let progress ← validateToken fieldName source index progress token
    let tokens ← validateFrom fieldName source (index + 1) progress rest
    return token :: tokens

/-- `OffsetTokenSequenceValidator.validate`. -/
def validate (fieldName : String) (source : JString)
    (output : Option (List (Option OffsetAnalyzedToken))) :
    Except Failure (List OffsetAnalyzedToken) :=
  if fieldName = "" then .error (.illegalArgument "fieldName must not be empty")
  else match output with
  | none => .error (invalidOffsets fieldName none "analyzer output must not be null")
  | some output => validateFrom fieldName source 0 ⟨-1, -1, -1, -1⟩ output

/-! ### What is accepted -/

/-- A token stands in the source and cuts no pair. -/
structure InSource (source : JString) (token : OffsetAnalyzedToken) : Prop where
  inside : token.endOffset ≤ source.length
  start_whole : splitsSurrogatePair source token.startOffset = false
  end_whole : splitsSurrogatePair source token.endOffset = false

/-- A token that follows another one: at the same position it has the same range, at a later one
its range does not move backward. -/
def Follows (a b : OffsetAnalyzedToken) : Prop :=
  if b.positionIncrement = 0 then b.startOffset = a.startOffset ∧ b.endOffset = a.endOffset
  else a.startOffset ≤ b.startOffset ∧ a.endOffset ≤ b.endOffset

/-- The lists that the validator accepts for a source. -/
structure ValidTokens (source : JString) (tokens : List OffsetAnalyzedToken) : Prop where
  first : ∀ token, tokens.head? = some token → 0 < token.positionIncrement
  positions : (tokens.map (·.positionIncrement)).sum ≤ 2147483648
  inSource : ∀ token ∈ tokens, InSource source token
  follows : tokens.IsChain Follows

theorem Follows.le {a b : OffsetAnalyzedToken} (h : Follows a b) :
    a.startOffset ≤ b.startOffset ∧ a.endOffset ≤ b.endOffset := by
  unfold Follows at h
  split at h <;> omega

/-- The ranges never move backward. -/
theorem ValidTokens.ordered {source : JString} {tokens : List OffsetAnalyzedToken}
    (h : ValidTokens source tokens) :
    tokens.Pairwise fun a b => a.startOffset ≤ b.startOffset ∧ a.endOffset ≤ b.endOffset := by
  have hchain : tokens.IsChain fun a b =>
      a.startOffset ≤ b.startOffset ∧ a.endOffset ≤ b.endOffset :=
    h.follows.imp fun _ _ => Follows.le
  have : IsTrans OffsetAnalyzedToken fun a b =>
      a.startOffset ≤ b.startOffset ∧ a.endOffset ≤ b.endOffset :=
    ⟨fun _ _ _ hab hbc => ⟨hab.1.trans hbc.1, hab.2.trans hbc.2⟩⟩
  exact hchain.pairwise

section

variable {fieldName : String} {source : JString}

theorem validateRange_eq_ok {token : OffsetAnalyzedToken} {index : ℕ} {u : Unit} :
    validateRange fieldName source token index = .ok u ↔ InSource source token := by
  simp only [validateRange, Lib.bind_eq_ok, refuse_eq_ok, not_lt, not_or, Bool.not_eq_true,
    gt_iff_lt]
  constructor
  · rintro ⟨_, hinside, hstart, hend⟩
    exact ⟨hinside, hstart, hend⟩
  · rintro ⟨hinside, hstart, hend⟩
    exact ⟨(), hinside, hstart, hend⟩

/-- The progress behind a token at a position. -/
def Progress.behind (position : ℕ) (token : OffsetAnalyzedToken) : Progress :=
  ⟨position, position, token.startOffset, token.endOffset⟩

theorem validateOrder_behind {index position : ℕ} {previous token : OffsetAnalyzedToken} {u : Unit} :
    validateOrder fieldName (.behind position previous) (position + token.positionIncrement : ℤ)
      token index = .ok u ↔ Follows previous token := by
  unfold validateOrder Follows
  split
  · rename_i hsame
    have hzero : token.positionIncrement = 0 := by
      simp only [Progress.behind] at hsame
      omega
    rw [if_pos hzero, refuse_eq_ok]
    simp only [Progress.behind]
    omega
  · rename_i hlater
    have hpos : token.positionIncrement ≠ 0 := by
      simp only [Progress.behind] at hlater
      omega
    split
    · rw [refuse_eq_ok]
      simp only [Progress.behind]
      omega
    · rename_i hneg
      simp only [Progress.behind] at hneg
      omega

/-- A token behind another one. -/
theorem validateToken_behind {index position : ℕ} {previous token : OffsetAnalyzedToken}
    {progress : Progress} :
    validateToken fieldName source (index + 1) (.behind position previous) token = .ok progress ↔
      position + token.positionIncrement ≤ 2147483647 ∧ InSource source token ∧
        Follows previous token ∧ progress = .behind (position + token.positionIncrement) token := by
  simp only [validateToken, Lib.bind_eq_ok, refuse_eq_ok, validateRange_eq_ok, pure, Except.pure,
    Except.ok.injEq]
  constructor
  · rintro ⟨_, -, _, hposition, _, hsource, _, hfollows, rfl⟩
    refine ⟨?_, hsource, validateOrder_behind.mp hfollows, by simp [Progress.behind]⟩
    simp only [Progress.behind] at hposition
    omega
  · rintro ⟨hposition, hsource, hfollows, rfl⟩
    refine ⟨(), by omega, (), ?_, (), hsource, (), validateOrder_behind.mpr hfollows,
      by simp [Progress.behind]⟩
    simp only [Progress.behind]
    omega

/-- The first token. -/
theorem validateToken_first {token : OffsetAnalyzedToken} {progress : Progress} :
    validateToken fieldName source 0 ⟨-1, -1, -1, -1⟩ token = .ok progress ↔
      0 < token.positionIncrement ∧ token.positionIncrement ≤ 2147483648 ∧
        InSource source token ∧ progress = .behind (token.positionIncrement - 1) token := by
  simp only [validateToken, Lib.bind_eq_ok, refuse_eq_ok, validateRange_eq_ok, pure, Except.pure,
    Except.ok.injEq, true_and]
  constructor
  · rintro ⟨_, hpos, _, hposition, _, hsource, _, -, rfl⟩
    refine ⟨by omega, by omega, hsource, ?_⟩
    simp only [Progress.behind, Progress.mk.injEq, and_true]
    omega
  · rintro ⟨hpos, hposition, hsource, rfl⟩
    refine ⟨(), by omega, (), by omega, (), hsource, (), ?_, ?_⟩
    · rw [validateOrder, if_neg (by show ¬ (_ = (-1 : ℤ)); omega), if_neg (by decide)]
    · simp only [Progress.behind, Progress.mk.injEq, and_true]
      omega

theorem validateFrom_behind {index position : ℕ} {previous : OffsetAnalyzedToken}
    {output : List (Option OffsetAnalyzedToken)} {tokens : List OffsetAnalyzedToken}
    (hposition : position ≤ 2147483647) :
    validateFrom fieldName source (index + 1) (.behind position previous) output = .ok tokens ↔
      output = tokens.map some ∧
        position + (tokens.map (·.positionIncrement)).sum ≤ 2147483647 ∧
        (∀ token ∈ tokens, InSource source token) ∧ (previous :: tokens).IsChain Follows := by
  induction output generalizing index position previous tokens with
  | nil =>
    rw [validateFrom, Except.ok.injEq]
    constructor
    · rintro rfl
      simpa using hposition
    · rintro ⟨h, -⟩
      exact (List.map_eq_nil_iff.mp h.symm).symm
  | cons first output ih =>
    cases first with
    | none =>
      rw [validateFrom]
      refine iff_of_false nofun ?_
      rintro ⟨h, -⟩
      cases tokens <;> cases h
    | some token =>
      simp only [validateFrom, Lib.bind_eq_ok, validateToken_behind, pure, Except.pure,
        Except.ok.injEq]
      constructor
      · rintro ⟨_, ⟨hnext, hsource, hfollows, rfl⟩, rest, hrest, rfl⟩
        obtain ⟨rfl, hsum, hall, hchain⟩ := (ih hnext).mp hrest
        refine ⟨rfl, ?_, by simpa [hsource] using hall, ?_⟩
        · rw [List.map_cons, List.sum_cons]
          omega
        · exact List.isChain_cons_cons.mpr ⟨hfollows, hchain⟩
      · rintro ⟨houtput, hsum, hall, hchain⟩
        cases tokens with
        | nil => cases houtput
        | cons token' rest =>
          cases houtput
          obtain ⟨hfollows, hchain⟩ := List.isChain_cons_cons.mp hchain
          obtain ⟨hsource, hall⟩ := List.forall_mem_cons.mp hall
          rw [List.map_cons, List.sum_cons] at hsum
          have hnext : position + token.positionIncrement ≤ 2147483647 := by omega
          exact ⟨_, ⟨hnext, hsource, hfollows, rfl⟩, rest,
            (ih hnext).mpr ⟨rfl, by omega, hall, hchain⟩, rfl⟩

/-- The validator accepts exactly the valid lists, and returns them. -/
theorem validate_eq_ok {output : Option (List (Option OffsetAnalyzedToken))}
    {tokens : List OffsetAnalyzedToken} :
    validate fieldName source output = .ok tokens ↔
      fieldName ≠ "" ∧ output = some (tokens.map some) ∧ ValidTokens source tokens := by
  unfold validate
  by_cases hname : fieldName = ""
  · rw [if_pos hname]
    exact iff_of_false nofun fun h => h.1 hname
  rw [if_neg hname]
  cases output with
  | none => exact iff_of_false nofun fun h => nomatch h.2.1
  | some output =>
    simp only [hname, ne_eq, not_false_eq_true, true_and, Option.some.injEq]
    cases output with
    | nil =>
      rw [validateFrom, Except.ok.injEq]
      constructor
      · rintro rfl
        exact ⟨rfl, ⟨nofun, by simp, nofun, .nil⟩⟩
      · rintro ⟨h, -⟩
        exact (List.map_eq_nil_iff.mp h.symm).symm
    | cons first output =>
      cases first with
      | none =>
        rw [validateFrom]
        refine iff_of_false nofun ?_
        rintro ⟨h, -⟩
        cases tokens <;> cases h
      | some token =>
        simp only [validateFrom, Lib.bind_eq_ok, validateToken_first, pure, Except.pure,
          Except.ok.injEq]
        constructor
        · rintro ⟨_, ⟨hpos, hposition, hsource, rfl⟩, rest, hrest, rfl⟩
          obtain ⟨rfl, hsum, hall, hchain⟩ := (validateFrom_behind (by omega)).mp hrest
          refine ⟨rfl, ⟨?_, ?_, by simpa [hsource] using hall, hchain⟩⟩
          · rintro _ h
            cases h
            exact hpos
          · rw [List.map_cons, List.sum_cons]
            omega
        · rintro ⟨houtput, hvalid⟩
          cases tokens with
          | nil => cases houtput
          | cons token' rest =>
            cases houtput
            have hpos := hvalid.first token rfl
            have hsum := hvalid.positions
            obtain ⟨hsource, hall⟩ := List.forall_mem_cons.mp hvalid.inSource
            rw [List.map_cons, List.sum_cons] at hsum
            exact ⟨_, ⟨hpos, by omega, hsource, rfl⟩, rest, (validateFrom_behind (by omega)).mpr
              ⟨rfl, by omega, hall, hvalid.follows⟩, rfl⟩

end

end GeneralSearch.Highlight
