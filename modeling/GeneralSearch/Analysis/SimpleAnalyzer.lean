import GeneralSearch.Highlight.Tokens
import GeneralSearch.Lib.Utf8

/-! `SimpleAnalyzer`: words of normalized text, with and without their ranges in the source.  The
ranges come from the source's own code points, mapped through the normalization chunk by chunk, or
prefix by prefix where the code points of a chunk do not normalize independently. -/

namespace GeneralSearch.Analysis

open GeneralSearch.Planner GeneralSearch.Ranked GeneralSearch.Highlight GeneralSearch.Utf8

/-- Every surrogate of the text has its partner. -/
def Paired (text : JString) : Prop := ∀ c ∈ codePoints text, IsScalar c

/-- The platform's Unicode data: `normalize` is NFKC with `toLowerCase(Locale.ROOT)`, `isMark` tells
the three types of marks.  A result is a string of the platform, so it has an `int` length. -/
structure UnicodeData where
  normalize : JString → JString
  isLetterOrDigit : ℕ → Bool
  isMark : ℕ → Bool
  paired : ∀ text, Paired text → Paired (normalize text)
  bounded : ∀ text, text.length ≤ 2147483647 → (normalize text).length ≤ 2147483647

variable (unicode : UnicodeData)

/-! ### Plain analysis -/

/-- The loop of `analyze`, with the term that was begun. -/
def termsFrom (term : JString) : List ℕ → List AnalyzedToken
  | [] => if h : term = [] then [] else [⟨term, 1, h⟩]
  | codePoint :: rest =>
    if unicode.isLetterOrDigit codePoint then termsFrom (term ++ codeUnits codePoint) rest
    else if h : term = [] then termsFrom [] rest
    else ⟨term, 1, h⟩ :: termsFrom [] rest

/-- `SimpleAnalyzer.analyzeWithPositions`. -/
def analyzeWithPositions (text : JString) : List AnalyzedToken :=
  if text = [] then [] else termsFrom unicode [] (codePoints (unicode.normalize text))

/-! ### Mapped code points -/

/-- `MappedCodePoint`. -/
structure MappedCodePoint where
  codePoint : ℕ
  startOffset : ℕ
  endOffset : ℕ
  deriving DecidableEq

/-- `mappedText`. -/
def mappedText (mapped : List MappedCodePoint) : JString := mapped.flatMap (codeUnits ·.codePoint)

/-- The walk over a source by `codePointAt` and `charCount`, from an offset on: its code points with
their own ranges. -/
def sourceFrom (offset : ℕ) : List ℕ → List MappedCodePoint
  | [] => []
  | codePoint :: rest =>
    let next := offset + (codeUnits codePoint).length
    ⟨codePoint, offset, next⟩ :: sourceFrom next rest

/-- `isNormalizationClusterCodePoint`. -/
def isNormalizationClusterCodePoint (codePoint : ℕ) : Bool :=
  unicode.isLetterOrDigit codePoint || unicode.isMark codePoint

/-- How many code points at the front are the same. -/
def commonLength : List MappedCodePoint → List ℕ → ℕ
  | m :: mapped, codePoint :: next =>
    if m.codePoint = codePoint then commonLength mapped next + 1 else 0
  | _, _ => 0

/-- One round of the loop of `mapIncrementally`: what `mapped` becomes when the text up to `source`
normalizes to `next`. -/
def replaceMapped (mapped : List MappedCodePoint) (next : List ℕ) (source : MappedCodePoint) :
    List MappedCodePoint :=
  let common := commonLength mapped next
  let replaced := mapped.drop common
  let replacementStart := replaced.foldl (fun first m => min first m.startOffset) source.startOffset
  let replacementEnd := replaced.foldl (fun last m => max last m.endOffset) source.endOffset
  mapped.take common ++ (next.drop common).map (⟨·, replacementStart, replacementEnd⟩)

/-- The loop of `mapIncrementally`, with the text before and what it was mapped to. -/
def mapIncrementally (before : JString) (mapped : List MappedCodePoint) :
    List MappedCodePoint → List MappedCodePoint
  | [] => mapped
  | source :: rest =>
    let text := before ++ codeUnits source.codePoint
    mapIncrementally text (replaceMapped mapped (codePoints (unicode.normalize text)) source) rest

/-- The code points of a chunk, each normalized for itself. -/
def independent (chunk : List MappedCodePoint) : List MappedCodePoint :=
  chunk.flatMap fun source =>
    (codePoints (unicode.normalize (codeUnits source.codePoint))).map
      (⟨·, source.startOffset, source.endOffset⟩)

/-- `appendMappedChunk`. -/
def mappedChunk (chunk : List MappedCodePoint) : List MappedCodePoint :=
  if mappedText (independent unicode chunk) = unicode.normalize (mappedText chunk) then
    independent unicode chunk
  else mapIncrementally unicode [] [] chunk

/-- The chunks of the loop of `mapNormalizedCodePoints`. -/
def chunks : List MappedCodePoint → List (List MappedCodePoint)
  | [] => []
  | first :: rest =>
    if isNormalizationClusterCodePoint unicode first.codePoint then
      (first :: rest.takeWhile fun m => isNormalizationClusterCodePoint unicode m.codePoint) ::
        chunks (rest.dropWhile fun m => isNormalizationClusterCodePoint unicode m.codePoint)
    else [first] :: chunks rest
termination_by source => source.length
decreasing_by
  · exact Nat.lt_succ_of_le ((List.dropWhile_sublist _).length_le)
  · exact Nat.lt_succ_self _

def mapNormalizedCodePoints (source : JString) : List MappedCodePoint :=
  let points := sourceFrom 0 (codePoints source)
  let mapped := (chunks unicode points).flatMap (mappedChunk unicode)
  if mappedText mapped = unicode.normalize source then mapped
  else mapIncrementally unicode [] [] points

/-! ### Analysis with offsets -/

/-- `new OffsetAnalyzedToken`. -/
def OffsetAnalyzedToken.make (term : JString) (positionIncrement startOffset : ℕ) (endOffset : ℤ) :
    Except Failure OffsetAnalyzedToken :=
  if hterm : term = [] then .error (.illegalArgument "term must not be empty")
  else if hrange : endOffset ≤ startOffset then
    .error (.illegalArgument "endOffset must be greater than startOffset")
  else .ok ⟨term, positionIncrement, startOffset, endOffset.toNat, hterm, by omega⟩

/-- The loop of `analyzeWithOffsets`, with the term that was begun and its range. -/
def offsetsFrom (term : JString) (tokenStart : ℕ) (tokenEnd : ℤ) :
    List MappedCodePoint → Except Failure (List OffsetAnalyzedToken)
  | [] =>
    if term = [] then .ok []
    else do
      let token ← OffsetAnalyzedToken.make term 1 tokenStart tokenEnd
      return [token]
  | mapped :: rest =>
    if unicode.isLetterOrDigit mapped.codePoint then
      offsetsFrom (term ++ codeUnits mapped.codePoint) (min tokenStart mapped.startOffset)
        (max tokenEnd mapped.endOffset) rest
    else if term = [] then offsetsFrom term tokenStart tokenEnd rest
    else do
      let token ← OffsetAnalyzedToken.make term 1 tokenStart tokenEnd
      let others ← offsetsFrom [] 2147483647 (-1) rest
      return token :: others

/-- `SimpleAnalyzer.analyzeWithOffsets`. -/
def analyzeWithOffsets (text : JString) : Except Failure (List OffsetAnalyzedToken) :=
  if text = [] then .ok []
  else offsetsFrom unicode [] 2147483647 (-1) (mapNormalizedCodePoints unicode text)

/-! ### Texts of code points -/

theorem codePoints_cons {u : JChar} (h : JChar.isHighSurrogate u = false) (rest : JString) :
    codePoints (u :: rest) = u.val :: codePoints rest := by
  cases rest with
  | nil => rfl
  | cons v rest => rw [codePoints, h, Bool.false_and, if_neg Bool.false_ne_true]

theorem codePoints_units {c : ℕ} (h : IsScalar c) (rest : JString) :
    codePoints (codeUnits c ++ rest) = c :: codePoints rest := by
  unfold codeUnits
  unfold IsScalar at h
  split
  · rename_i hsmall
    have hval : (Fin.ofNat 65536 c).val = c := Nat.mod_eq_of_lt hsmall
    have hhigh : JChar.isHighSurrogate (Fin.ofNat 65536 c) = false := by
      simp only [JChar.isHighSurrogate, hval, Bool.and_eq_false_iff, decide_eq_false_iff_not]
      omega
    rw [List.singleton_append, codePoints_cons hhigh, hval]
  · rename_i hlarge
    have hhigh : (Fin.ofNat 65536 (55296 + (c - 65536) / 1024)).val = 55296 + (c - 65536) / 1024 :=
      Nat.mod_eq_of_lt (by omega)
    have hlow : (Fin.ofNat 65536 (56320 + (c - 65536) % 1024)).val = 56320 + (c - 65536) % 1024 :=
      Nat.mod_eq_of_lt (by omega)
    have hpair : (JChar.isHighSurrogate (Fin.ofNat 65536 (55296 + (c - 65536) / 1024)) &&
        JChar.isLowSurrogate (Fin.ofNat 65536 (56320 + (c - 65536) % 1024))) = true := by
      simp only [JChar.isHighSurrogate, JChar.isLowSurrogate, hhigh, hlow, Bool.and_eq_true,
        decide_eq_true_eq]
      omega
    have hpoint : 65536 + (55296 + (c - 65536) / 1024 - 55296) * 1024 +
        (56320 + (c - 65536) % 1024 - 56320) = c := by omega
    rw [List.cons_append, List.singleton_append, codePoints, if_pos hpair, hhigh, hlow, hpoint]

/-- A text of scalar values has these code points. -/
theorem codePoints_flatMap {points : List ℕ} (h : ∀ c ∈ points, IsScalar c) :
    codePoints (points.flatMap codeUnits) = points := by
  induction points with
  | nil => rfl
  | cons c points ih =>
    obtain ⟨hc, hpoints⟩ := List.forall_mem_cons.mp h
    rw [List.flatMap_cons, codePoints_units hc, ih hpoints]

theorem paired_flatMap {points : List ℕ} (h : ∀ c ∈ points, IsScalar c) :
    Paired (points.flatMap codeUnits) := by
  rwa [Paired, codePoints_flatMap h]

theorem mappedText_eq (mapped : List MappedCodePoint) :
    mappedText mapped = (mapped.map (·.codePoint)).flatMap codeUnits := by
  rw [List.flatMap_map]
  rfl

theorem map_sourceFrom (offset : ℕ) (points : List ℕ) :
    (sourceFrom offset points).map (·.codePoint) = points := by
  induction points generalizing offset with
  | nil => rfl
  | cons c points ih => rw [sourceFrom, List.map_cons, ih]

/-! ### What is mapped -/

section

variable {unicode}

/-- The part that stays has the code points that it is compared with. -/
theorem map_take_commonLength (mapped : List MappedCodePoint) (next : List ℕ) :
    (mapped.take (commonLength mapped next)).map (·.codePoint) =
      next.take (commonLength mapped next) := by
  fun_induction commonLength mapped next with
  | case1 m mapped next ih =>
    rw [List.take_succ_cons, List.take_succ_cons, List.map_cons, ih]
  | case2 => rfl
  | case3 => rfl

/-- A round of the loop ends with the code points of the text so far. -/
theorem map_replaceMapped (mapped : List MappedCodePoint) (next : List ℕ)
    (source : MappedCodePoint) :
    (replaceMapped mapped next source).map (·.codePoint) = next := by
  unfold replaceMapped
  dsimp only
  rw [List.map_append, map_take_commonLength, List.map_map]
  have hrest (points : List ℕ) (a b : ℕ) :
      points.map ((·.codePoint) ∘ (⟨·, a, b⟩ : ℕ → MappedCodePoint)) = points := List.map_id points
  rw [hrest, List.take_append_drop]

/-- The loop ends with the code points of the whole text. -/
theorem map_mapIncrementally {before : JString} {mapped points : List MappedCodePoint}
    (h : mapped.map (·.codePoint) = codePoints (unicode.normalize before) ∨ points ≠ []) :
    (mapIncrementally unicode before mapped points).map (·.codePoint) =
      codePoints (unicode.normalize (before ++ mappedText points)) := by
  induction points generalizing before mapped with
  | nil =>
    rw [mapIncrementally, mappedText, List.flatMap_nil, List.append_nil]
    exact h.resolve_right (not_not.mpr rfl)
  | cons source rest ih =>
    rw [mapIncrementally, ih (.inl (map_replaceMapped _ _ _)), List.append_assoc]
    rfl

/-! ### Where it comes from -/

/-- A mapped code point does not begin or end later than another one. -/
def NotAfter (a b : MappedCodePoint) : Prop :=
  a.startOffset ≤ b.startOffset ∧ a.endOffset ≤ b.endOffset

/-- Code points of a source, one after the other. -/
structure Walk (points : List MappedCodePoint) : Prop where
  scalar : ∀ s ∈ points, IsScalar s.codePoint
  nonempty : ∀ s ∈ points, s.startOffset < s.endOffset
  apart : points.Pairwise fun a b => a.endOffset ≤ b.startOffset

/-- Code points that some code points of a source are mapped to. -/
structure MappedFrom (points mapped : List MappedCodePoint) : Prop where
  scalar : ∀ m ∈ mapped, IsScalar m.codePoint
  starts : ∀ m ∈ mapped, ∃ s ∈ points, s.startOffset = m.startOffset
  ends : ∀ m ∈ mapped, ∃ s ∈ points, s.endOffset = m.endOffset
  nonempty : ∀ m ∈ mapped, m.startOffset < m.endOffset
  ordered : mapped.Pairwise NotAfter

theorem MappedFrom.nil (points : List MappedCodePoint) : MappedFrom points [] :=
  ⟨nofun, nofun, nofun, nofun, .nil⟩

theorem Walk.of_append {points rest : List MappedCodePoint} (h : Walk (points ++ rest)) :
    Walk points ∧ Walk rest := by
  obtain ⟨hscalar, hnonempty, hapart⟩ := h
  rw [List.pairwise_append] at hapart
  exact ⟨⟨fun s hs => hscalar s (List.mem_append_left _ hs),
      fun s hs => hnonempty s (List.mem_append_left _ hs), hapart.1⟩,
    ⟨fun s hs => hscalar s (List.mem_append_right _ hs),
      fun s hs => hnonempty s (List.mem_append_right _ hs), hapart.2.1⟩⟩

/-- What comes from the front of a source ends before the rest of it. -/
theorem MappedFrom.end_le {points rest mapped : List MappedCodePoint} (h : MappedFrom points mapped)
    (hwalk : Walk (points ++ rest)) {m s : MappedCodePoint} (hm : m ∈ mapped) (hs : s ∈ rest) :
    m.endOffset ≤ s.startOffset := by
  obtain ⟨s', hs', heq⟩ := h.ends m hm
  rw [← heq]
  exact (List.pairwise_append.mp hwalk.apart).2.2 s' hs' s hs

theorem MappedFrom.append {points rest mapped others : List MappedCodePoint}
    (h : MappedFrom points mapped) (hothers : MappedFrom rest others)
    (hwalk : Walk (points ++ rest)) : MappedFrom (points ++ rest) (mapped ++ others) := by
  constructor
  · exact List.forall_mem_append.mpr ⟨h.scalar, hothers.scalar⟩
  · refine List.forall_mem_append.mpr ⟨fun m hm => ?_, fun m hm => ?_⟩
    · obtain ⟨s, hs, heq⟩ := h.starts m hm
      exact ⟨s, List.mem_append_left _ hs, heq⟩
    · obtain ⟨s, hs, heq⟩ := hothers.starts m hm
      exact ⟨s, List.mem_append_right _ hs, heq⟩
  · refine List.forall_mem_append.mpr ⟨fun m hm => ?_, fun m hm => ?_⟩
    · obtain ⟨s, hs, heq⟩ := h.ends m hm
      exact ⟨s, List.mem_append_left _ hs, heq⟩
    · obtain ⟨s, hs, heq⟩ := hothers.ends m hm
      exact ⟨s, List.mem_append_right _ hs, heq⟩
  · exact List.forall_mem_append.mpr ⟨h.nonempty, hothers.nonempty⟩
  · refine List.pairwise_append.mpr ⟨h.ordered, hothers.ordered, fun m hm m' hm' => ?_⟩
    obtain ⟨s, hs, heq⟩ := hothers.starts m' hm'
    have hend := h.end_le hwalk hm hs
    have hm := h.nonempty m hm
    have hm' := hothers.nonempty m' hm'
    unfold NotAfter
    omega

/-- Parts of a source that are mapped for themselves. -/
theorem mappedFrom_flatMap {α : Type} {parts : List α} {source : α → List MappedCodePoint}
    (mapped : α → List MappedCodePoint)
    (h : ∀ part ∈ parts, Walk (source part) → MappedFrom (source part) (mapped part))
    (hwalk : Walk (parts.flatMap source)) :
    MappedFrom (parts.flatMap source) (parts.flatMap mapped) := by
  induction parts with
  | nil => exact .nil _
  | cons part parts ih =>
    obtain ⟨hpart, hparts⟩ := List.forall_mem_cons.mp h
    rw [List.flatMap_cons] at hwalk ⊢
    obtain ⟨hfirst, hrest⟩ := hwalk.of_append
    exact (hpart hfirst).append (ih hparts hrest) hwalk

/-- A fold that chooses one of two values gives one of all, which bounds them. -/
theorem foldl_choice {α : Type} {r : ℕ → ℕ → Prop} [IsTrans ℕ r] (hrefl : ∀ a, r a a)
    {choose : ℕ → ℕ → ℕ}
    (hchoose : ∀ a b, (choose a b = a ∨ choose a b = b) ∧ r (choose a b) a ∧ r (choose a b) b)
    (f : α → ℕ) (first : ℕ) (values : List α) :
    (values.foldl (fun a v => choose a (f v)) first = first ∨
        ∃ v ∈ values, values.foldl (fun a v => choose a (f v)) first = f v) ∧
      r (values.foldl (fun a v => choose a (f v)) first) first ∧
      ∀ v ∈ values, r (values.foldl (fun a v => choose a (f v)) first) (f v) := by
  induction values generalizing first with
  | nil => exact ⟨.inl rfl, hrefl first, nofun⟩
  | cons v values ih =>
    obtain ⟨hchosen, hfirst, hv⟩ := hchoose first (f v)
    obtain ⟨hresult, hbound, hrest⟩ := ih (choose first (f v))
    rw [List.foldl_cons]
    refine ⟨?_, trans_of r hbound hfirst, List.forall_mem_cons.mpr ⟨trans_of r hbound hv, hrest⟩⟩
    rcases hresult with heq | ⟨w, hw, heq⟩
    · rw [heq]
      rcases hchosen with hchosen | hchosen
      · exact .inl hchosen
      · exact .inr ⟨v, List.mem_cons_self, hchosen⟩
    · exact .inr ⟨w, List.mem_cons_of_mem _ hw, heq⟩

theorem foldl_min (f : MappedCodePoint → ℕ) (first : ℕ) (values : List MappedCodePoint) :
    (values.foldl (fun a v => min a (f v)) first = first ∨
        ∃ v ∈ values, values.foldl (fun a v => min a (f v)) first = f v) ∧
      values.foldl (fun a v => min a (f v)) first ≤ first ∧
      ∀ v ∈ values, values.foldl (fun a v => min a (f v)) first ≤ f v :=
  foldl_choice le_refl (fun a b => ⟨min_choice a b, min_le_left a b, min_le_right a b⟩) f first values

theorem foldl_max (f : MappedCodePoint → ℕ) (first : ℕ) (values : List MappedCodePoint) :
    (values.foldl (fun a v => max a (f v)) first = first ∨
        ∃ v ∈ values, values.foldl (fun a v => max a (f v)) first = f v) ∧
      first ≤ values.foldl (fun a v => max a (f v)) first ∧
      ∀ v ∈ values, f v ≤ values.foldl (fun a v => max a (f v)) first :=
  foldl_choice (r := (· ≥ ·)) le_refl
    (fun a b => ⟨max_choice a b, le_max_left a b, le_max_right a b⟩) f first values

/-- One round: what is replaced becomes one range, up to the end of the code point that was added. -/
theorem mappedFrom_replaceMapped {done mapped : List MappedCodePoint} {next : List ℕ}
    {source : MappedCodePoint} (hwalk : Walk (done ++ [source])) (h : MappedFrom done mapped)
    (hnext : ∀ c ∈ next, IsScalar c) :
    MappedFrom (done ++ [source]) (replaceMapped mapped next source) := by
  have hsource : source.startOffset < source.endOffset := hwalk.nonempty source (by simp)
  have hend : ∀ m ∈ mapped, m.endOffset ≤ source.startOffset :=
    fun m hm => h.end_le hwalk hm (List.mem_singleton_self source)
  have hkept : ∀ m ∈ mapped.take (commonLength mapped next), m ∈ mapped :=
    fun m hm => List.mem_of_mem_take hm
  have hreplaced : ∀ m ∈ mapped.drop (commonLength mapped next), m ∈ mapped :=
    fun m hm => List.mem_of_mem_drop hm
  obtain ⟨hkeptOrdered, -, hordered⟩ : (mapped.take (commonLength mapped next)).Pairwise NotAfter ∧
      (mapped.drop (commonLength mapped next)).Pairwise NotAfter ∧
      ∀ m ∈ mapped.take (commonLength mapped next),
        ∀ m' ∈ mapped.drop (commonLength mapped next), NotAfter m m' := by
    rw [← List.pairwise_append, List.take_append_drop]
    exact h.ordered
  obtain ⟨hstart, hstartle, hstarts⟩ := foldl_min (·.startOffset) source.startOffset
    (mapped.drop (commonLength mapped next))
  obtain ⟨hlast, hlastle, -⟩ := foldl_max (·.endOffset) source.endOffset
    (mapped.drop (commonLength mapped next))
  unfold replaceMapped
  dsimp only at *
  generalize (mapped.drop (commonLength mapped next)).foldl
    (fun first m => min first m.startOffset) source.startOffset = replacementStart at *
  generalize (mapped.drop (commonLength mapped next)).foldl
    (fun last m => max last m.endOffset) source.endOffset = replacementEnd at *
  generalize mapped.take (commonLength mapped next) = kept at *
  generalize mapped.drop (commonLength mapped next) = replaced at *
  have hend' : replacementEnd = source.endOffset := by
    rcases hlast with heq | ⟨m, hm, heq⟩
    · exact heq
    · have := hend m (hreplaced m hm)
      omega
  subst hend'
  constructor
  · refine List.forall_mem_append.mpr ⟨fun m hm => h.scalar m (hkept m hm),
      List.forall_mem_map.mpr fun c hc => hnext c (List.mem_of_mem_drop hc)⟩
  · refine List.forall_mem_append.mpr ⟨fun m hm => ?_, List.forall_mem_map.mpr fun c hc => ?_⟩
    · obtain ⟨s, hs, heq⟩ := h.starts m (hkept m hm)
      exact ⟨s, List.mem_append_left _ hs, heq⟩
    · rcases hstart with heq | ⟨m, hm, heq⟩
      · exact ⟨source, by simp, heq.symm⟩
      · obtain ⟨s, hs, heq'⟩ := h.starts m (hreplaced m hm)
        exact ⟨s, List.mem_append_left _ hs, heq'.trans heq.symm⟩
  · refine List.forall_mem_append.mpr ⟨fun m hm => ?_, List.forall_mem_map.mpr fun c hc => ?_⟩
    · obtain ⟨s, hs, heq⟩ := h.ends m (hkept m hm)
      exact ⟨s, List.mem_append_left _ hs, heq⟩
    · exact ⟨source, by simp, rfl⟩
  · exact List.forall_mem_append.mpr ⟨fun m hm => h.nonempty m (hkept m hm),
      List.forall_mem_map.mpr fun c hc => hstartle.trans_lt hsource⟩
  · refine List.pairwise_append.mpr ⟨hkeptOrdered, ?_, fun m hm => List.forall_mem_map.mpr
      fun c hc => ?_⟩
    · exact List.pairwise_map.mpr (List.pairwise_of_forall fun _ _ => ⟨le_rfl, le_rfl⟩)
    · have hle := hend m (hkept m hm)
      have hlt := h.nonempty m (hkept m hm)
      refine ⟨?_, hle.trans hsource.le⟩
      rcases hstart with heq | ⟨m', hm', heq⟩
      · dsimp only
        omega
      · exact heq ▸ (hordered m hm m' hm').1

/-- The loop of `mapIncrementally`. -/
theorem mappedFrom_mapIncrementally {done rest mapped : List MappedCodePoint} {before : JString}
    (hwalk : Walk (done ++ rest)) (h : MappedFrom done mapped) (hbefore : Paired before) :
    MappedFrom (done ++ rest) (mapIncrementally unicode before mapped rest) := by
  induction rest generalizing done mapped before with
  | nil =>
    rw [List.append_nil]
    exact h
  | cons source rest ih =>
    rw [List.append_cons] at hwalk ⊢
    have hsource : IsScalar source.codePoint := hwalk.scalar source (by simp)
    have htext : Paired (before ++ codeUnits source.codePoint) := by
      have happend : before ++ codeUnits source.codePoint =
          (codePoints before ++ [source.codePoint]).flatMap codeUnits := by
        rw [List.flatMap_append, codeUnits_codePoints, List.flatMap_singleton]
      rw [happend]
      refine paired_flatMap (List.forall_mem_append.mpr ⟨hbefore, ?_⟩)
      simpa using hsource
    exact ih hwalk (mappedFrom_replaceMapped hwalk.of_append.1 h (unicode.paired _ htext)) htext

theorem mappedFrom_independent {chunk : List MappedCodePoint} (hwalk : Walk chunk) :
    MappedFrom chunk (independent unicode chunk) := by
  have hparts : chunk.flatMap (fun source => [source]) = chunk := List.flatMap_singleton' chunk
  rw [← hparts] at hwalk
  have h := mappedFrom_flatMap (fun source : MappedCodePoint =>
    (codePoints (unicode.normalize (codeUnits source.codePoint))).map
      (⟨·, source.startOffset, source.endOffset⟩)) (fun source _ hsource => ?_) hwalk
  · rwa [hparts] at h
  · have hscalar := hsource.scalar source (by simp)
    have hnonempty := hsource.nonempty source (by simp)
    have hpaired : Paired (codeUnits source.codePoint) := by
      have hone : Paired ([source.codePoint].flatMap codeUnits) :=
        paired_flatMap (by simpa using hscalar)
      rwa [List.flatMap_singleton] at hone
    exact ⟨List.forall_mem_map.mpr (unicode.paired _ hpaired),
      List.forall_mem_map.mpr fun c _ => ⟨source, by simp, rfl⟩,
      List.forall_mem_map.mpr fun c _ => ⟨source, by simp, rfl⟩,
      List.forall_mem_map.mpr fun c _ => hnonempty,
      List.pairwise_map.mpr (List.pairwise_of_forall fun _ _ => ⟨le_rfl, le_rfl⟩)⟩

theorem mappedFrom_mappedChunk {chunk : List MappedCodePoint} (hwalk : Walk chunk) :
    MappedFrom chunk (mappedChunk unicode chunk) := by
  unfold mappedChunk
  split
  · exact mappedFrom_independent hwalk
  · exact @mappedFrom_mapIncrementally unicode [] _ _ _ hwalk (.nil _) nofun

theorem flatten_chunks (points : List MappedCodePoint) :
    (chunks unicode points).flatten = points := by
  fun_induction chunks unicode points with
  | case1 => rfl
  | case2 first rest _ ih =>
    rw [List.flatten_cons, ih, List.cons_append, List.takeWhile_append_dropWhile]
  | case3 first rest _ ih =>
    rw [List.flatten_cons, ih, List.singleton_append]

theorem length_codeUnits_pos (c : ℕ) : 0 < (codeUnits c).length := by
  unfold codeUnits
  split <;> exact Nat.succ_pos _

theorem walk_sourceFrom {points : List ℕ} (h : ∀ c ∈ points, IsScalar c) (offset : ℕ) :
    Walk (sourceFrom offset points) ∧ ∀ s ∈ sourceFrom offset points, offset ≤ s.startOffset := by
  induction points generalizing offset with
  | nil => exact ⟨⟨nofun, nofun, .nil⟩, nofun⟩
  | cons c points ih =>
    obtain ⟨hc, hpoints⟩ := List.forall_mem_cons.mp h
    obtain ⟨⟨hscalar, hnonempty, hapart⟩, hfrom⟩ := ih hpoints (offset + (codeUnits c).length)
    have hpos := length_codeUnits_pos c
    refine ⟨⟨List.forall_mem_cons.mpr ⟨hc, hscalar⟩, List.forall_mem_cons.mpr ⟨?_, hnonempty⟩,
      List.pairwise_cons.mpr ⟨hfrom, hapart⟩⟩,
      List.forall_mem_cons.mpr ⟨le_rfl, fun s hs => (Nat.le_add_right _ _).trans (hfrom s hs)⟩⟩
    exact Nat.lt_add_of_pos_right hpos

/-- The last unit of a scalar value is not the first half of a pair. -/
theorem codeUnits_last {c : ℕ} (h : IsScalar c) :
    ∃ units last, codeUnits c = units ++ [last] ∧ JChar.isHighSurrogate last = false := by
  unfold codeUnits
  unfold IsScalar at h
  split
  · rename_i hsmall
    refine ⟨[], _, rfl, ?_⟩
    have hval : (Fin.ofNat 65536 c).val = c := Nat.mod_eq_of_lt hsmall
    simp only [JChar.isHighSurrogate, hval, Bool.and_eq_false_iff, decide_eq_false_iff_not]
    omega
  · refine ⟨[_], _, rfl, ?_⟩
    have hval : (Fin.ofNat 65536 (56320 + (c - 65536) % 1024)).val = 56320 + (c - 65536) % 1024 :=
      Nat.mod_eq_of_lt (by omega)
    simp only [JChar.isHighSurrogate, hval, Bool.and_eq_false_iff, decide_eq_false_iff_not]
    omega

/-- No pair is split behind some scalar values. -/
theorem not_splits_behind {points : List ℕ} (h : ∀ c ∈ points, IsScalar c) (rest : JString) :
    splitsSurrogatePair (points.flatMap codeUnits ++ rest) (points.flatMap codeUnits).length =
      false := by
  rcases List.eq_nil_or_concat points with rfl | ⟨before, c, rfl⟩
  · exact splitsSurrogatePair_zero _
  · obtain ⟨units, last, hunits, hlast⟩ := codeUnits_last (h c (by simp))
    have hindex : (((before.concat c).flatMap codeUnits ++ rest))[
        ((before.concat c).flatMap codeUnits).length - 1]? = some last := by
      have hsplit : (before.concat c).flatMap codeUnits =
          before.flatMap codeUnits ++ units ++ [last] := by
        rw [List.concat_eq_append, List.flatMap_append, List.flatMap_singleton, hunits,
          List.append_assoc]
      rw [hsplit, List.length_append, List.length_singleton, Nat.add_sub_cancel,
        List.append_assoc, List.getElem?_append_right le_rfl, Nat.sub_self]
      rfl
    rw [Bool.eq_false_iff]
    intro hsplits
    obtain ⟨high, -, -, hhigh, -, hishigh, -⟩ := splitsSurrogatePair_iff.mp hsplits
    rw [hindex] at hhigh
    cases hhigh
    rw [hlast] at hishigh
    cases hishigh

/-- The ranges of the source's own code points are whole. -/
theorem whole_sourceFrom {before points : List ℕ} (h : ∀ c ∈ before ++ points, IsScalar c) :
    ∀ s ∈ sourceFrom (before.flatMap codeUnits).length points,
      splitsSurrogatePair ((before ++ points).flatMap codeUnits) s.startOffset = false ∧
        splitsSurrogatePair ((before ++ points).flatMap codeUnits) s.endOffset = false ∧
        s.endOffset ≤ ((before ++ points).flatMap codeUnits).length := by
  induction points generalizing before with
  | nil => nofun
  | cons c points ih =>
    have hlength : (before.flatMap codeUnits).length + (codeUnits c).length =
        ((before ++ [c]).flatMap codeUnits).length := by
      rw [List.flatMap_append, List.flatMap_singleton, List.length_append]
    have hboundary {front rest : List ℕ} (hfront : ∀ c ∈ front ++ rest, IsScalar c) :
        splitsSurrogatePair ((front ++ rest).flatMap codeUnits) (front.flatMap codeUnits).length =
          false := by
      rw [List.flatMap_append]
      exact not_splits_behind (fun c hc => hfront c (List.mem_append_left _ hc)) _
    have hstart := hboundary h
    have hsplit : before ++ c :: points = before ++ [c] ++ points := List.append_cons _ _ _
    rw [hsplit] at h hstart ⊢
    rw [sourceFrom, hlength]
    refine List.forall_mem_cons.mpr ⟨⟨hstart, hboundary h, ?_⟩, ih h⟩
    rw [@List.flatMap_append _ _ (before ++ [c]), List.length_append]
    exact Nat.le_add_right _ _

/-- The code points of the normalized text, mapped from those of the source. -/
theorem mapNormalizedCodePoints_spec {source : JString} (hne : source ≠ []) (h : Paired source) :
    MappedFrom (sourceFrom 0 (codePoints source)) (mapNormalizedCodePoints unicode source) ∧
      (mapNormalizedCodePoints unicode source).map (·.codePoint) =
        codePoints (unicode.normalize source) := by
  have hwalk : Walk (sourceFrom 0 (codePoints source)) := (walk_sourceFrom h 0).1
  have htext : mappedText (sourceFrom 0 (codePoints source)) = source := by
    rw [mappedText_eq, map_sourceFrom, codeUnits_codePoints]
  have hpoints : sourceFrom 0 (codePoints source) ≠ [] := by
    intro hnil
    rw [hnil] at htext
    exact hne htext.symm
  unfold mapNormalizedCodePoints
  dsimp only
  split
  · rename_i hsame
    have hparts : (chunks unicode (sourceFrom 0 (codePoints source))).flatMap (fun chunk => chunk) =
        sourceFrom 0 (codePoints source) := by
      rw [List.flatMap_id', flatten_chunks]
    rw [← hparts] at hwalk
    have hmapped : MappedFrom _ ((chunks unicode (sourceFrom 0 (codePoints source))).flatMap
      (mappedChunk unicode)) := mappedFrom_flatMap _ (fun _ _ => mappedFrom_mappedChunk) hwalk
    rw [hparts] at hmapped
    refine ⟨hmapped, ?_⟩
    rw [← hsame, mappedText_eq, codePoints_flatMap (List.forall_mem_map.mpr hmapped.scalar)]
  · refine ⟨@mappedFrom_mapIncrementally unicode [] _ _ _ hwalk (.nil _) nofun, ?_⟩
    rw [map_mapIncrementally (.inr hpoints), List.nil_append, htext]

/-! ### Tokens -/

/-- A range of the source that cuts no pair. -/
structure WholeRange (source : JString) (startOffset endOffset : ℕ) : Prop where
  nonempty : startOffset < endOffset
  inside : endOffset ≤ source.length
  start_whole : splitsSurrogatePair source startOffset = false
  end_whole : splitsSurrogatePair source endOffset = false

theorem MappedFrom.wholeRange {source : JString} {mapped : List MappedCodePoint}
    (h : MappedFrom (sourceFrom 0 (codePoints source)) mapped) (hpaired : Paired source) :
    ∀ m ∈ mapped, WholeRange source m.startOffset m.endOffset := by
  intro m hm
  have hwhole := @whole_sourceFrom [] (codePoints source) hpaired
  rw [List.nil_append, codeUnits_codePoints] at hwhole
  obtain ⟨s, hs, hstart⟩ := h.starts m hm
  obtain ⟨s', hs', hend⟩ := h.ends m hm
  have hstart' := (hwhole s hs).1
  obtain ⟨-, hend', hinside⟩ := hwhole s' hs'
  rw [hstart] at hstart'
  rw [hend] at hend' hinside
  exact ⟨h.nonempty m hm, hinside, hstart', hend'⟩

/-- Tokens with the terms and increments of the plain ones, in the order of their ranges. -/
structure Offsets (source : JString) (terms : List AnalyzedToken)
    (tokens : List OffsetAnalyzedToken) : Prop where
  same : tokens.map (fun t => (t.term, t.positionIncrement)) =
    terms.map fun t => (t.term, t.positionIncrement)
  inSource : ∀ t ∈ tokens, InSource source t
  ordered : tokens.Pairwise fun a b => a.startOffset ≤ b.startOffset ∧ a.endOffset ≤ b.endOffset

/-- A range begins and ends at given offsets or after them. -/
def From (a b startOffset endOffset : ℕ) : Prop := a ≤ startOffset ∧ b ≤ endOffset

/-- What the loop has of the next token: nothing, or a term with its range, that the mapped code points
still to come do not go before. -/
def Begun (source : JString) (rest : List MappedCodePoint) (a b : ℕ) (term : JString)
    (tokenStart : ℕ) (tokenEnd : ℤ) : Prop :=
  (term = [] ∧ tokenStart = 2147483647 ∧ tokenEnd = -1 ∧
      ∀ m ∈ rest, From a b m.startOffset m.endOffset) ∨
    (term ≠ [] ∧ ∃ last : ℕ, tokenEnd = last ∧ From a b tokenStart last ∧
      WholeRange source tokenStart last ∧ ∀ m ∈ rest, From tokenStart last m.startOffset m.endOffset)

theorem make_eq_ok {term : JString} {first last : ℕ} (hterm : term ≠ []) (h : first < last) :
    OffsetAnalyzedToken.make term 1 first last = .ok ⟨term, 1, first, last, hterm, h⟩ := by
  rw [OffsetAnalyzedToken.make, dif_neg hterm, dif_neg (by omega)]
  rfl

/-- A code point of a term goes to the end of its range. -/
theorem Begun.extend {source : JString} {m : MappedCodePoint} {rest : List MappedCodePoint}
    {a b : ℕ} {term units : JString} {tokenStart : ℕ} {tokenEnd : ℤ} (hunits : units ≠ [])
    (h : Begun source (m :: rest) a b term tokenStart tokenEnd)
    (hlength : source.length ≤ 2147483647) (hrange : WholeRange source m.startOffset m.endOffset)
    (hordered : ∀ m' ∈ rest, NotAfter m m') :
    Begun source rest a b (term ++ units) (min tokenStart m.startOffset)
      (max tokenEnd m.endOffset) := by
  have hnonempty := hrange.nonempty
  have hinside := hrange.inside
  refine .inr ⟨List.append_ne_nil_of_right_ne_nil _ hunits, m.endOffset, ?_⟩
  rcases h with ⟨rfl, rfl, rfl, hfrom⟩ | ⟨-, last, rfl, hfrom, hwhole, hrest⟩
  · obtain ⟨hfirst, -⟩ := List.forall_mem_cons.mp hfrom
    rw [min_eq_right (by omega)]
    exact ⟨max_eq_right (by omega), hfirst, hrange, hordered⟩
  · obtain ⟨⟨hstart, hend⟩, hrest⟩ := List.forall_mem_cons.mp hrest
    rw [min_eq_left hstart]
    refine ⟨max_eq_right (by omega), ⟨hfrom.1, hfrom.2.trans hend⟩, ?_, fun m' hm' => ?_⟩
    · exact ⟨hwhole.nonempty.trans_le hend, hinside, hwhole.start_whole, hrange.end_whole⟩
    · exact ⟨(hrest m' hm').1, (hordered m' hm').2⟩

/-- The loop gives the tokens of the plain analysis. -/
theorem offsetsFrom_spec {source : JString} {rest : List MappedCodePoint} {a b : ℕ} {term : JString}
    {tokenStart : ℕ} {tokenEnd : ℤ} (hlength : source.length ≤ 2147483647)
    (hranges : ∀ m ∈ rest, WholeRange source m.startOffset m.endOffset)
    (hordered : rest.Pairwise NotAfter) (h : Begun source rest a b term tokenStart tokenEnd) :
    ∃ tokens, offsetsFrom unicode term tokenStart tokenEnd rest = .ok tokens ∧
      Offsets source (termsFrom unicode term (rest.map (·.codePoint))) tokens ∧
      ∀ t ∈ tokens, From a b t.startOffset t.endOffset := by
  induction rest generalizing a b term tokenStart tokenEnd with
  | nil =>
    rw [offsetsFrom, List.map_nil, termsFrom]
    rcases h with ⟨rfl, -, -, -⟩ | ⟨hterm, last, rfl, hfrom, hwhole, -⟩
    · exact ⟨[], rfl, ⟨rfl, nofun, .nil⟩, nofun⟩
    · rw [if_neg hterm, dif_neg hterm, make_eq_ok hterm hwhole.nonempty]
      refine ⟨_, rfl, ⟨rfl, ?_, List.pairwise_singleton _ _⟩, ?_⟩
      · exact List.forall_mem_singleton.mpr ⟨hwhole.inside, hwhole.start_whole, hwhole.end_whole⟩
      · exact List.forall_mem_singleton.mpr hfrom
  | cons m rest ih =>
    obtain ⟨hrange, hranges⟩ := List.forall_mem_cons.mp hranges
    obtain ⟨hfirst, hordered⟩ := List.pairwise_cons.mp hordered
    rw [offsetsFrom, List.map_cons, termsFrom]
    split
    · have hunits : codeUnits m.codePoint ≠ [] :=
        List.ne_nil_of_length_pos (length_codeUnits_pos _)
      exact ih hranges hordered (h.extend hunits hlength hrange hfirst)
    · rcases h with ⟨rfl, hstart, hend, hfrom⟩ | ⟨hterm, last, rfl, hfrom, hwhole, hrest⟩
      · exact ih hranges hordered (.inl ⟨rfl, hstart, hend, (List.forall_mem_cons.mp hfrom).2⟩)
      · rw [if_neg hterm, dif_neg hterm, make_eq_ok hterm hwhole.nonempty]
        obtain ⟨tokens, hok, hoffsets, hafter⟩ := ih (a := tokenStart) (b := last) hranges hordered
          (.inl ⟨rfl, rfl, rfl, (List.forall_mem_cons.mp hrest).2⟩)
        rw [hok]
        refine ⟨_, rfl, ⟨?_, ?_, ?_⟩, ?_⟩
        · rw [List.map_cons, List.map_cons, hoffsets.same]
        · exact List.forall_mem_cons.mpr
            ⟨⟨hwhole.inside, hwhole.start_whole, hwhole.end_whole⟩, hoffsets.inSource⟩
        · exact List.pairwise_cons.mpr ⟨hafter, hoffsets.ordered⟩
        · exact List.forall_mem_cons.mpr ⟨hfrom, fun t ht =>
            ⟨hfrom.1.trans (hafter t ht).1, hfrom.2.trans (hafter t ht).2⟩⟩

/-! ### Agreement -/

theorem termsFrom_increment {term : JString} {points : List ℕ} :
    ∀ t ∈ termsFrom unicode term points, t.positionIncrement = 1 := by
  fun_induction termsFrom unicode term points with
  | case1 => nofun
  | case2 => exact List.forall_mem_singleton.mpr rfl
  | case3 _ _ _ _ ih => exact ih
  | case4 _ _ _ ih => exact ih
  | case5 _ _ _ _ _ ih => exact List.forall_mem_cons.mpr ⟨rfl, ih⟩

/-- A term has a code point of its own. -/
theorem length_termsFrom (term : JString) (points : List ℕ) :
    (termsFrom unicode term points).length ≤ points.length + if term = [] then 0 else 1 := by
  fun_induction termsFrom unicode term points with
  | case1 => exact Nat.zero_le _
  | case2 term hterm =>
    rw [if_neg hterm]
    exact le_rfl
  | case3 term c rest _ ih =>
    rw [if_neg (List.append_ne_nil_of_right_ne_nil _
      (List.ne_nil_of_length_pos (length_codeUnits_pos c)))] at ih
    exact ih.trans (Nat.le_add_right _ _)
  | case4 c rest _ ih =>
    rw [if_pos rfl] at ih ⊢
    exact ih.trans (Nat.le_succ _)
  | case5 term c rest _ hterm ih =>
    rw [if_pos rfl] at ih
    rw [if_neg hterm, List.length_cons, List.length_cons]
    exact Nat.succ_le_succ (ih.trans (Nat.le_succ _))

theorem length_codePoints_le (text : JString) : (codePoints text).length ≤ text.length := by
  fun_induction codePoints text with
  | case1 => exact le_rfl
  | case2 => exact le_rfl
  | case3 u v rest _ ih => exact Nat.succ_le_succ (ih.trans (Nat.le_succ _))
  | case4 u v rest _ ih => exact Nat.succ_le_succ ih

/-- Tokens of the plain analysis, one position each, are accepted for their source. -/
theorem Offsets.valid {source : JString} {terms : List AnalyzedToken}
    {tokens : List OffsetAnalyzedToken} (h : Offsets source terms tokens)
    (hincrement : ∀ t ∈ terms, t.positionIncrement = 1) (hlength : terms.length ≤ 2147483647) :
    ValidTokens source tokens := by
  have hsame : tokens.map (·.positionIncrement) = List.replicate terms.length 1 := by
    have hmap := congrArg (List.map Prod.snd) h.same
    rw [List.map_map, List.map_map] at hmap
    refine hmap.trans (List.eq_replicate_iff.mpr ⟨List.length_map _, ?_⟩)
    exact List.forall_mem_map.mpr hincrement
  have hone : ∀ t ∈ tokens, t.positionIncrement = 1 := fun t ht =>
    List.eq_of_mem_replicate (hsame ▸ List.mem_map_of_mem ht)
  constructor
  · intro t ht
    rw [hone t (List.mem_of_head? ht)]
    exact Nat.one_pos
  · rw [hsame, List.sum_replicate_nat]
    omega
  · exact h.inSource
  · refine (h.ordered.imp_of_mem fun {t t'} _ ht' hle => ?_).isChain
    rw [Follows, if_neg (by rw [hone t' ht']; exact Nat.one_ne_zero)]
    exact hle

end

/-- For a text without unpaired surrogates the analysis with offsets gives the terms and positions of
the plain one, with ranges that the validator accepts. -/
theorem analyzeWithOffsets_agrees {text : JString} (hlength : text.length ≤ 2147483647)
    (hpaired : Paired text) :
    ∃ tokens, analyzeWithOffsets unicode text = .ok tokens ∧
      tokens.map (fun t => (t.term, t.positionIncrement)) =
        (analyzeWithPositions unicode text).map (fun t => (t.term, t.positionIncrement)) ∧
      ValidTokens text tokens ∧
      ∀ fieldName, fieldName ≠ "" → validate fieldName text (some (tokens.map some)) = .ok tokens := by
  suffices h : ∃ tokens, analyzeWithOffsets unicode text = .ok tokens ∧
      Offsets text (analyzeWithPositions unicode text) tokens ∧ ValidTokens text tokens by
    obtain ⟨tokens, hok, hoffsets, hvalid⟩ := h
    exact ⟨tokens, hok, hoffsets.same, hvalid,
      fun fieldName hname => validate_eq_ok.mpr ⟨hname, rfl, hvalid⟩⟩
  unfold analyzeWithOffsets analyzeWithPositions
  by_cases hempty : text = []
  · rw [if_pos hempty, if_pos hempty]
    exact ⟨[], rfl, ⟨rfl, nofun, .nil⟩, ⟨nofun, Nat.zero_le _, nofun, .nil⟩⟩
  · rw [if_neg hempty, if_neg hempty]
    obtain ⟨hmapped, hpoints⟩ := @mapNormalizedCodePoints_spec unicode _ hempty hpaired
    have hranges := hmapped.wholeRange hpaired
    obtain ⟨tokens, hok, hoffsets, -⟩ := offsetsFrom_spec (a := 0) (b := 0) hlength hranges
      hmapped.ordered (.inl ⟨rfl, rfl, rfl, fun m _ => ⟨Nat.zero_le _, Nat.zero_le _⟩⟩)
    rw [hpoints] at hoffsets
    refine ⟨tokens, hok, hoffsets, hoffsets.valid termsFrom_increment ?_⟩
    have hterms := @length_termsFrom unicode [] (codePoints (unicode.normalize text))
    rw [if_pos rfl] at hterms
    exact hterms.trans ((length_codePoints_le _).trans (unicode.bounded text hlength))

/-! ### ASCII and one accent -/

/-- A code point without its case: the letters of ASCII, and "É". -/
def lowerLatin (c : ℕ) : ℕ := if 65 ≤ c ∧ c ≤ 90 ∨ c = 201 then c + 32 else c

/-- An "e" and the combining acute accent after it become one letter. -/
def composeLatin : List ℕ → List ℕ
  | [] => []
  | [c] => [c]
  | c :: accent :: rest =>
    if c = 101 ∧ accent = 769 then 233 :: composeLatin rest else c :: composeLatin (accent :: rest)

theorem lowerLatin_scalar {c : ℕ} (h : IsScalar c) : IsScalar (lowerLatin c) := by
  unfold lowerLatin IsScalar at *
  split <;> omega

theorem length_lowerLatin (c : ℕ) : (codeUnits (lowerLatin c)).length = (codeUnits c).length := by
  unfold lowerLatin
  split
  · rename_i hupper
    rw [codeUnits, codeUnits, if_pos (by omega), if_pos (by omega)]
    rfl
  · rfl

theorem composeLatin_scalar {points : List ℕ} (h : ∀ c ∈ points, IsScalar c) :
    ∀ c ∈ composeLatin points, IsScalar c := by
  fun_induction composeLatin points with
  | case1 => exact h
  | case2 => exact h
  | case3 c accent rest _ ih =>
    obtain ⟨-, -, hrest⟩ := List.forall_mem_cons.mp h |>.imp_right List.forall_mem_cons.mp
    exact List.forall_mem_cons.mpr ⟨by decide, ih hrest⟩
  | case4 c accent rest _ ih =>
    obtain ⟨hc, hrest⟩ := List.forall_mem_cons.mp h
    exact List.forall_mem_cons.mpr ⟨hc, ih hrest⟩

theorem length_composeLatin (points : List ℕ) :
    ((composeLatin points).flatMap codeUnits).length ≤ (points.flatMap codeUnits).length := by
  fun_induction composeLatin points with
  | case1 => exact le_rfl
  | case2 => exact le_rfl
  | case3 c accent rest h ih =>
    obtain ⟨rfl, rfl⟩ := h
    simp only [List.flatMap_cons, List.length_append]
    exact Nat.add_le_add (by decide) (ih.trans (Nat.le_add_left _ _))
  | case4 c accent rest _ ih =>
    rw [List.flatMap_cons, List.flatMap_cons, List.length_append, List.length_append]
    exact Nat.add_le_add_left ih _

/-- The data as it is for texts of ASCII, "é" and "É", whose accent may be a code point of its
own. -/
def latin : UnicodeData where
  normalize text := (composeLatin ((codePoints text).map lowerLatin)).flatMap codeUnits
  isLetterOrDigit c := decide (48 ≤ c ∧ c ≤ 57 ∨ 65 ≤ c ∧ c ≤ 90 ∨ 97 ≤ c ∧ c ≤ 122 ∨ c = 201 ∨
    c = 233)
  isMark c := decide (c = 769)
  paired text h := paired_flatMap (composeLatin_scalar
    (List.forall_mem_map.mpr fun c hc => lowerLatin_scalar (h c hc)))
  bounded text h := by
    have hlength : (((codePoints text).map lowerLatin).flatMap codeUnits).length = text.length := by
      conv_rhs => rw [← codeUnits_codePoints text]
      rw [List.flatMap_map, List.length_flatMap, List.length_flatMap]
      simp only [length_lowerLatin]
    exact (length_composeLatin _).trans (hlength.le.trans h)

/-- The text "Été Ab", with the accents as code points of their own, has the tokens "été" and "ab".
The letters of the first chunk do not normalize one by one, so it is mapped prefix by prefix. -/
theorem analyzeWithOffsets_agrees_words :
    ∃ tokens, analyzeWithOffsets latin [69, 769, 116, 101, 769, 32, 65, 98] = .ok tokens ∧
      tokens.map (fun t => (t.term, t.startOffset, t.endOffset)) =
        [([233, 116, 233], 0, 5), ([97, 98], 6, 8)] ∧
      (analyzeWithPositions latin [69, 769, 116, 101, 769, 32, 65, 98]).map
        (fun t => (t.term, t.positionIncrement)) = [([233, 116, 233], 1), ([97, 98], 1)] ∧
      ValidTokens [69, 769, 116, 101, 769, 32, 65, 98] tokens ∧
      validate "title" [69, 769, 116, 101, 769, 32, 65, 98] (some (tokens.map some)) =
        .ok tokens := by
  obtain ⟨tokens, htokens, hsame, hvalid, hvalidate⟩ := analyzeWithOffsets_agrees latin
    (show ([69, 769, 116, 101, 769, 32, 65, 98] : JString).length ≤ 2147483647 by decide)
    (by unfold Paired; decide)
  have hplain : (analyzeWithPositions latin [69, 769, 116, 101, 769, 32, 65, 98]).map
      (fun t => (t.term, t.positionIncrement)) = [([233, 116, 233], 1), ([97, 98], 1)] := by decide
  have hmapped : mapNormalizedCodePoints latin [69, 769, 116, 101, 769, 32, 65, 98] =
      [⟨233, 0, 2⟩, ⟨116, 2, 3⟩, ⟨233, 3, 5⟩, ⟨32, 5, 6⟩, ⟨97, 6, 7⟩, ⟨98, 7, 8⟩] := by
    decide +kernel
  have hranges : (analyzeWithOffsets latin [69, 769, 116, 101, 769, 32, 65, 98]).map
      (·.map fun t => (t.term, t.startOffset, t.endOffset)) =
        .ok [([233, 116, 233], 0, 5), ([97, 98], 6, 8)] := by
    rw [analyzeWithOffsets, if_neg (by decide), hmapped]
    rfl
  rw [htokens] at hranges
  exact ⟨tokens, htokens, Except.ok.inj hranges, hplain, hvalid, hvalidate _ (by decide)⟩

end GeneralSearch.Analysis
