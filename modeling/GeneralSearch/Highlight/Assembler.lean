import GeneralSearch.Highlight.Tokens
import GeneralSearch.Lib.Intervals

/-! `HighlightAssembler`: the spans that were found are merged, widened by their context to windows of
whole characters, and the windows become the fragments that are shown. -/

namespace GeneralSearch.Highlight

open GeneralSearch.Planner GeneralSearch.Ranked
open GeneralSearch.Lib (Coalesced absorb coalesce coalesce_coalesced flatMap_filter_contained
  pairwise_related)

/-! ### Spans -/

/-- `HighlightSpan`. -/
structure HighlightSpan where
  startOffset : ℕ
  endOffset : ℕ
  nonempty : startOffset < endOffset

instance : DecidableEq HighlightSpan := fun a b =>
  decidable_of_iff (a.startOffset = b.startOffset ∧ a.endOffset = b.endOffset)
    (by cases a; cases b; simp)

/-- The order in which `normalizeSpans` sorts. -/
def HighlightSpan.le (a b : HighlightSpan) : Prop :=
  a.startOffset < b.startOffset ∨
    (a.startOffset = b.startOffset ∧ a.endOffset ≤ b.endOffset)

instance : DecidableRel HighlightSpan.le := fun _ _ => inferInstanceAs (Decidable (_ ∨ _))

instance : Std.Total HighlightSpan.le where
  total a b := by
    unfold HighlightSpan.le
    omega

instance : IsTrans HighlightSpan HighlightSpan.le where
  trans a b c := by
    unfold HighlightSpan.le
    omega

/-- The span that replaces the last one when another one begins inside it. -/
def HighlightSpan.join (previous span : HighlightSpan) : HighlightSpan where
  startOffset := previous.startOffset
  endOffset := max previous.endOffset span.endOffset
  nonempty := lt_max_of_lt_left previous.nonempty

/-- `HighlightAssembler.normalizeSpans`. -/
def normalizeSpans (rawSpans : List HighlightSpan) : List HighlightSpan :=
  coalesce HighlightSpan.startOffset HighlightSpan.endOffset HighlightSpan.join
    (rawSpans.insertionSort HighlightSpan.le)

/-! ### Windows -/

/-- `HighlightAssembler.Window`. -/
structure Window where
  startOffset : ℕ
  endOffset : ℕ
  deriving DecidableEq, Repr

def Window.join (previous window : Window) : Window :=
  ⟨previous.startOffset, max previous.endOffset window.endOffset⟩

def adjustStart (source : JString) (boundary : ℕ) : ℕ :=
  if splitsSurrogatePair source boundary then boundary - 1 else boundary

def adjustEnd (source : JString) (boundary : ℕ) : ℕ :=
  if splitsSurrogatePair source boundary then boundary + 1 else boundary

/-- The window around one span; the subtraction stops at zero. -/
def window (source : JString) (contextCharacters : ℕ) (span : HighlightSpan) : Window where
  startOffset := adjustStart source (span.startOffset - contextCharacters)
  endOffset := adjustEnd source (min source.length (span.endOffset + contextCharacters))

/-- The first loop of `HighlightAssembler.fragments`. -/
def windows (source : JString) (spans : List HighlightSpan) (contextCharacters : ℕ) : List Window :=
  spans.foldl (fun windows span => absorb Window.startOffset Window.endOffset Window.join windows
    (window source contextCharacters span)) []

/-! ### Fragments -/

/-- The checks of the constructor of `HighlightFragment`. -/
structure FragmentValid (startOffset endOffset : ℕ) (text : JString) (spans : List HighlightSpan) :
    Prop where
  range : startOffset < endOffset
  length : text.length = endOffset - startOffset
  some : spans ≠ []
  contained : ∀ span ∈ spans, startOffset ≤ span.startOffset ∧ span.endOffset ≤ endOffset
  ordered : spans.IsChain fun a b => a.endOffset ≤ b.startOffset

theorem fragmentValid_iff {startOffset endOffset : ℕ} {text : JString}
    {spans : List HighlightSpan} : FragmentValid startOffset endOffset text spans ↔
      startOffset < endOffset ∧ text.length = endOffset - startOffset ∧ spans ≠ [] ∧
        (∀ span ∈ spans, startOffset ≤ span.startOffset ∧ span.endOffset ≤ endOffset) ∧
        spans.IsChain fun a b => a.endOffset ≤ b.startOffset :=
  ⟨fun h => ⟨h.range, h.length, h.some, h.contained, h.ordered⟩,
    fun ⟨hrange, hlength, hsome, hcontained, hordered⟩ =>
      ⟨hrange, hlength, hsome, hcontained, hordered⟩⟩

instance (startOffset endOffset : ℕ) (text : JString) (spans : List HighlightSpan) :
    Decidable (FragmentValid startOffset endOffset text spans) :=
  decidable_of_iff _ fragmentValid_iff.symm

/-- `HighlightFragment`. -/
structure HighlightFragment where
  startOffset : ℕ
  endOffset : ℕ
  text : JString
  spans : List HighlightSpan
  valid : FragmentValid startOffset endOffset text spans
  deriving DecidableEq

/-- The message of the loop over the spans of a fragment. -/
def spansProblem (startOffset endOffset : ℕ) : Option ℕ → List HighlightSpan → String
  | _, [] => ""
  | previousEnd, span :: rest =>
    if span.startOffset < startOffset ∨ span.endOffset > endOffset then
      "fragment spans must be contained by the fragment range"
    else if previousEnd.any fun previousEnd => span.startOffset < previousEnd then
      "fragment spans must be strictly ordered and non-overlapping"
    else spansProblem startOffset endOffset (some span.endOffset) rest

/-- The message of the first check that fails. -/
def fragmentProblem (startOffset endOffset : ℕ) (text : JString) (spans : List HighlightSpan) :
    String :=
  if endOffset ≤ startOffset then "highlight fragment must be non-empty and non-negative"
  else if text.length ≠ endOffset - startOffset then
    "fragment text length must equal its source range length"
  else if spans = [] then "a highlight fragment requires at least one span"
  else spansProblem startOffset endOffset none spans

/-- `new HighlightFragment`. -/
def HighlightFragment.make (startOffset endOffset : ℕ) (text : JString)
    (spans : List HighlightSpan) : Except Failure HighlightFragment :=
  if h : FragmentValid startOffset endOffset text spans then
    .ok ⟨startOffset, endOffset, text, spans, h⟩
  else .error (.illegalArgument (fragmentProblem startOffset endOffset text spans))

/-- `String.substring`. -/
def substring (source : JString) (beginIndex endIndex : ℕ) : Except Failure JString :=
  if beginIndex ≤ endIndex ∧ endIndex ≤ source.length then
    .ok ((source.drop beginIndex).take (endIndex - beginIndex))
  else .error .indexOutOfBounds

/-- The spans that lie in a window. -/
def containedSpans (spans : List HighlightSpan) (window : Window) : List HighlightSpan :=
  spans.filter fun span =>
    window.startOffset ≤ span.startOffset ∧ span.endOffset ≤ window.endOffset

/-- The second loop of `HighlightAssembler.fragments`. -/
def collectFragments (source : JString) (spans : List HighlightSpan) (maxFragmentsPerField : ℕ) :
    List HighlightFragment → List Window → Except Failure (List HighlightFragment)
  | fragments, [] => .ok fragments
  | fragments, window :: rest =>
    if fragments.length = maxFragmentsPerField then .ok fragments
    else do
      let text ← substring source window.startOffset window.endOffset
      let fragment ← HighlightFragment.make window.startOffset window.endOffset text
        (containedSpans spans window)
      collectFragments source spans maxFragmentsPerField (fragments ++ [fragment]) rest

/-- `HighlightAssembler.fragments`. -/
def fragments (source : JString) (spans : List HighlightSpan) (contextCharacters : ℕ)
    (maxFragmentsPerField : ℕ) : Except Failure (List HighlightFragment) :=
  if spans = [] then .ok []
  else collectFragments source spans maxFragmentsPerField []
    (windows source spans contextCharacters)

/-! ### Normalized spans -/

/-- The normalized spans are the raw ones, merged where they overlap. -/
theorem normalizeSpans_coalesced (rawSpans : List HighlightSpan) :
    Coalesced HighlightSpan.startOffset HighlightSpan.endOffset
      (rawSpans.insertionSort HighlightSpan.le) (normalizeSpans rawSpans) := by
  refine coalesce_coalesced HighlightSpan.startOffset HighlightSpan.endOffset HighlightSpan.join
    (fun _ _ => rfl) (fun _ _ => rfl) _ (fun span _ => span.nonempty) ?_
  refine (List.pairwise_insertionSort HighlightSpan.le rawSpans).imp fun {a b} h => ?_
  unfold HighlightSpan.le at h
  omega

theorem mem_sorted {rawSpans : List HighlightSpan} {span : HighlightSpan} :
    span ∈ rawSpans.insertionSort HighlightSpan.le ↔ span ∈ rawSpans :=
  (List.perm_insertionSort HighlightSpan.le rawSpans).mem_iff

/-- A character is covered by the normalized spans exactly when a raw one covers it. -/
theorem normalizeSpans_covers (rawSpans : List HighlightSpan) (i : ℕ) :
    (∃ span ∈ normalizeSpans rawSpans, span.startOffset ≤ i ∧ i < span.endOffset) ↔
      ∃ span ∈ rawSpans, span.startOffset ≤ i ∧ i < span.endOffset := by
  have h := normalizeSpans_coalesced rawSpans
  constructor
  · rintro ⟨span, hspan, hlow, hhigh⟩
    obtain ⟨raw, hraw, hin⟩ := h.covered span hspan i hlow hhigh
    exact ⟨raw, mem_sorted.mp hraw, hin⟩
  · rintro ⟨raw, hraw, hlow, hhigh⟩
    obtain ⟨span, hspan, hstart, hend⟩ := h.contains raw (mem_sorted.mpr hraw)
    exact ⟨span, hspan, by omega, by omega⟩

/-! ### Boundaries -/

section

variable {source : JString}

theorem adjustStart_le (boundary : ℕ) : adjustStart source boundary ≤ boundary := by
  unfold adjustStart
  split <;> omega

theorem le_adjustEnd (boundary : ℕ) : boundary ≤ adjustEnd source boundary := by
  unfold adjustEnd
  split <;> omega

theorem adjustStart_whole (boundary : ℕ) :
    splitsSurrogatePair source (adjustStart source boundary) = false := by
  unfold adjustStart
  split
  · exact not_splitsSurrogatePair_pred ‹_›
  · rename_i hwhole
    simpa using hwhole

theorem adjustEnd_whole (boundary : ℕ) :
    splitsSurrogatePair source (adjustEnd source boundary) = false := by
  unfold adjustEnd
  split
  · exact not_splitsSurrogatePair_succ ‹_›
  · rename_i hwhole
    simpa using hwhole

theorem adjustEnd_le {boundary : ℕ} (h : boundary ≤ source.length) :
    adjustEnd source boundary ≤ source.length := by
  unfold adjustEnd
  split
  · rename_i hsplits
    have hne : boundary ≠ source.length := by
      rintro rfl
      rw [splitsSurrogatePair_length] at hsplits
      cases hsplits
    omega
  · exact h

/-- A later boundary is not adjusted to one further left. -/
theorem adjustStart_mono {a b : ℕ} (h : a ≤ b) : adjustStart source a ≤ adjustStart source b := by
  rcases h.eq_or_lt with rfl | hlt
  · exact le_rfl
  · have ha := @adjustStart_le source a
    have hb : b - 1 ≤ adjustStart source b := by
      unfold adjustStart
      split <;> omega
    omega

end

/-! ### The windows of spans in a source -/

section

variable {source : JString} {spans : List HighlightSpan}

theorem windows_eq (source : JString) (spans : List HighlightSpan) (contextCharacters : ℕ) :
    windows source spans contextCharacters =
      coalesce Window.startOffset Window.endOffset Window.join
        (spans.map (window source contextCharacters)) := by
  rw [windows, coalesce, List.foldl_map]

/-- A window contains its span. -/
theorem window_contains {contextCharacters : ℕ} {span : HighlightSpan}
    (hinside : span.endOffset ≤ source.length) :
    (window source contextCharacters span).startOffset ≤ span.startOffset ∧
      span.endOffset ≤ (window source contextCharacters span).endOffset := by
  have hstart := @adjustStart_le source (span.startOffset - contextCharacters)
  have hend := @le_adjustEnd source (min source.length (span.endOffset + contextCharacters))
  simp only [window]
  omega

variable (contextCharacters : ℕ)

theorem windows_coalesced (hinside : ∀ span ∈ spans, span.endOffset ≤ source.length)
    (hordered : spans.Pairwise fun a b => a.endOffset ≤ b.startOffset) :
    Coalesced Window.startOffset Window.endOffset (spans.map (window source contextCharacters))
      (windows source spans contextCharacters) := by
  rw [windows_eq]
  refine coalesce_coalesced Window.startOffset Window.endOffset Window.join (fun _ _ => rfl)
    (fun _ _ => rfl) _ ?_ ?_
  · intro w hw
    obtain ⟨span, hspan, rfl⟩ := List.mem_map.mp hw
    have hcontains := @window_contains source contextCharacters span (hinside span hspan)
    have hnonempty := span.nonempty
    omega
  · refine List.pairwise_map.mpr (hordered.imp fun {a b} hle => adjustStart_mono ?_)
    have hnonempty := a.nonempty
    omega

/-- What the windows of separated spans in a source are. -/
structure WindowsOf (source : JString) (spans : List HighlightSpan) (windows : List Window) :
    Prop where
  nonempty : ∀ w ∈ windows, w.startOffset < w.endOffset
  separated : windows.Pairwise fun a b => a.endOffset ≤ b.startOffset
  inside : ∀ w ∈ windows, w.endOffset ≤ source.length
  start_whole : ∀ w ∈ windows, splitsSurrogatePair source w.startOffset = false
  end_whole : ∀ w ∈ windows, splitsSurrogatePair source w.endOffset = false
  contains : ∀ span ∈ spans, ∃ w ∈ windows,
    w.startOffset ≤ span.startOffset ∧ span.endOffset ≤ w.endOffset
  filled : ∀ w ∈ windows, ∃ span ∈ spans,
    w.startOffset ≤ span.startOffset ∧ span.endOffset ≤ w.endOffset

theorem windows_of (hinside : ∀ span ∈ spans, span.endOffset ≤ source.length)
    (hordered : spans.Pairwise fun a b => a.endOffset ≤ b.startOffset) :
    WindowsOf source spans (windows source spans contextCharacters) := by
  have h := windows_coalesced contextCharacters hinside hordered
  have hcontains : ∀ span ∈ spans, ∃ w ∈ windows source spans contextCharacters,
      w.startOffset ≤ span.startOffset ∧ span.endOffset ≤ w.endOffset := by
    intro span hspan
    obtain ⟨w, hw, hlow, hhigh⟩ := h.contains _ (List.mem_map_of_mem hspan)
    have hwindow := @window_contains source contextCharacters span (hinside span hspan)
    exact ⟨w, hw, by omega, by omega⟩
  refine ⟨h.nonempty, h.separated, fun w hw => ?_, fun w hw => ?_, fun w hw => ?_, hcontains,
    fun w hw => ?_⟩
  · obtain ⟨_, hx, heq⟩ := h.stops w hw
    obtain ⟨span, -, rfl⟩ := List.mem_map.mp hx
    rw [heq]
    exact adjustEnd_le (min_le_left ..)
  · obtain ⟨_, hx, heq⟩ := h.starts w hw
    obtain ⟨span, -, rfl⟩ := List.mem_map.mp hx
    rw [heq]
    exact adjustStart_whole _
  · obtain ⟨_, hx, heq⟩ := h.stops w hw
    obtain ⟨span, -, rfl⟩ := List.mem_map.mp hx
    rw [heq]
    exact adjustEnd_whole _
  · -- The span whose window gave the start lies in no window but this one.
    obtain ⟨_, hx, heq⟩ := h.starts w hw
    obtain ⟨span, hspan, rfl⟩ := List.mem_map.mp hx
    obtain ⟨w', hw', hlow, hhigh⟩ := h.contains _ hx
    have hwindow := @window_contains source contextCharacters span (hinside span hspan)
    have hnonempty := h.nonempty w hw
    have hspan' := span.nonempty
    have hsame : w = w' := by
      by_contra hne
      rcases h.disjoint hw hw' hne with hle | hle <;> omega
    subst hsame
    exact ⟨span, hspan, by omega, by omega⟩

end

/-! ### The fragments -/

section

variable {source : JString} {spans : List HighlightSpan}

/-- The range of a fragment. -/
def HighlightFragment.range (fragment : HighlightFragment) : Window :=
  ⟨fragment.startOffset, fragment.endOffset⟩

/-- A fragment shows its part of the source with the spans that lie in it. -/
structure Shows (source : JString) (spans : List HighlightSpan) (fragment : HighlightFragment) :
    Prop where
  text : fragment.text =
    (source.drop fragment.startOffset).take (fragment.endOffset - fragment.startOffset)
  spans : fragment.spans = containedSpans spans fragment.range

/-- A window becomes a fragment. -/
theorem fragment_made {w : Window} (hnonempty : w.startOffset < w.endOffset)
    (hinside : w.endOffset ≤ source.length)
    (hordered : spans.Pairwise fun a b => a.endOffset ≤ b.startOffset)
    (hfilled : ∃ span ∈ spans, w.startOffset ≤ span.startOffset ∧ span.endOffset ≤ w.endOffset) :
    ∃ fragment, substring source w.startOffset w.endOffset = .ok fragment.text ∧
      HighlightFragment.make w.startOffset w.endOffset fragment.text (containedSpans spans w) =
        .ok fragment ∧ w = fragment.range ∧ Shows source spans fragment := by
  have hvalid : FragmentValid w.startOffset w.endOffset
      ((source.drop w.startOffset).take (w.endOffset - w.startOffset)) (containedSpans spans w) := by
    refine ⟨hnonempty, ?_, ?_, fun span hspan => ?_, (hordered.filter _).isChain⟩
    · rw [List.length_take, List.length_drop]
      omega
    · obtain ⟨span, hspan, hin⟩ := hfilled
      exact List.ne_nil_of_mem (List.mem_filter.mpr ⟨hspan, decide_eq_true hin⟩)
    · exact of_decide_eq_true (List.mem_filter.mp hspan).2
  refine ⟨⟨_, _, _, _, hvalid⟩, if_pos ⟨hnonempty.le, hinside⟩, ?_, rfl, rfl, rfl⟩
  rw [HighlightFragment.make, dif_pos hvalid]

/-- The windows become fragments, and the limit cuts their list. -/
theorem collectFragments_ok {ws : List Window}
    (hordered : spans.Pairwise fun a b => a.endOffset ≤ b.startOffset)
    (hws : ∀ w ∈ ws, w.startOffset < w.endOffset ∧ w.endOffset ≤ source.length ∧
      ∃ span ∈ spans, w.startOffset ≤ span.startOffset ∧ span.endOffset ≤ w.endOffset) :
    ∃ all : List HighlightFragment, ws = all.map (·.range) ∧
      (∀ fragment ∈ all, Shows source spans fragment) ∧
      ∀ maxFragmentsPerField fragments, fragments.length ≤ maxFragmentsPerField →
        collectFragments source spans maxFragmentsPerField fragments ws =
          .ok (fragments ++ all.take (maxFragmentsPerField - fragments.length)) := by
  induction ws with
  | nil =>
    refine ⟨[], rfl, nofun, fun maxFragmentsPerField fragments _ => ?_⟩
    rw [collectFragments, List.take_nil, List.append_nil]
  | cons w ws ih =>
    obtain ⟨⟨hnonempty, hinside, hfilled⟩, hws⟩ := List.forall_mem_cons.mp hws
    obtain ⟨all, rfl, hall, hcollect⟩ := ih hws
    obtain ⟨fragment, htext, hmake, rfl, hshows⟩ :=
      fragment_made hnonempty hinside hordered hfilled
    refine ⟨fragment :: all, rfl, List.forall_mem_cons.mpr ⟨hshows, hall⟩,
      fun maxFragmentsPerField fragments hle => ?_⟩
    rw [collectFragments]
    split
    · rename_i hfull
      rw [hfull, Nat.sub_self, List.take_zero, List.append_nil]
    · rename_i hroom
      have hlt : fragments.length < maxFragmentsPerField := by omega
      have hsucc : maxFragmentsPerField - fragments.length =
          (maxFragmentsPerField - (fragments ++ [fragment]).length) + 1 := by
        rw [List.length_append, List.length_singleton]
        omega
      rw [htext]
      show (HighlightFragment.make _ _ fragment.text _ >>= _) = _
      rw [hmake]
      show collectFragments source spans maxFragmentsPerField (fragments ++ [fragment]) _ = _
      rw [hcollect _ _ (by rw [List.length_append, List.length_singleton]; omega), hsucc,
        List.take_succ_cons, List.append_assoc]
      rfl

end

/-- The spans of validated tokens, merged, are separated and cover what the raw spans cover; the
fragments are separated parts of the source that cut no pair, and each normalized span lies in
exactly one of them.  A limit leaves out the last fragments only. -/
theorem fragments_complete {fieldName : String} {source : JString}
    {output : Option (List (Option OffsetAnalyzedToken))} {tokens : List OffsetAnalyzedToken}
    (hvalid : validate fieldName source output = .ok tokens) {rawSpans : List HighlightSpan}
    (hraw : ∀ span ∈ rawSpans, ∃ first ∈ tokens, ∃ last ∈ tokens,
      span.startOffset = first.startOffset ∧ span.endOffset = last.endOffset)
    (contextCharacters : ℕ) :
    (normalizeSpans rawSpans).Pairwise (fun a b => a.endOffset ≤ b.startOffset) ∧
      (∀ i, (∃ span ∈ normalizeSpans rawSpans, span.startOffset ≤ i ∧ i < span.endOffset) ↔
        ∃ span ∈ rawSpans, span.startOffset ≤ i ∧ i < span.endOffset) ∧
      ∃ all : List HighlightFragment,
        (∀ maxFragmentsPerField, fragments source (normalizeSpans rawSpans) contextCharacters
          maxFragmentsPerField = .ok (all.take maxFragmentsPerField)) ∧
        all.Pairwise (fun a b => a.endOffset ≤ b.startOffset) ∧
        (∀ fragment ∈ all, fragment.startOffset < fragment.endOffset ∧
          fragment.endOffset ≤ source.length ∧
          splitsSurrogatePair source fragment.startOffset = false ∧
          splitsSurrogatePair source fragment.endOffset = false ∧
          fragment.text = (source.drop fragment.startOffset).take
            (fragment.endOffset - fragment.startOffset)) ∧
        (∀ span ∈ normalizeSpans rawSpans, ∃! fragment, fragment ∈ all ∧
          fragment.startOffset ≤ span.startOffset ∧ span.endOffset ≤ fragment.endOffset) ∧
        all.flatMap (·.spans) = normalizeSpans rawSpans := by
  obtain ⟨-, -, htokens⟩ := validate_eq_ok.mp hvalid
  have hspans := normalizeSpans_coalesced rawSpans
  have hordered := hspans.separated
  refine ⟨hordered, normalizeSpans_covers rawSpans, ?_⟩
  have hinside : ∀ span ∈ normalizeSpans rawSpans, span.endOffset ≤ source.length := by
    intro span hspan
    obtain ⟨raw, hmem, heq⟩ := hspans.stops span hspan
    obtain ⟨-, -, last, hlast, -, hend⟩ := hraw raw (mem_sorted.mp hmem)
    rw [heq, hend]
    exact (htokens.inSource last hlast).inside
  generalize normalizeSpans rawSpans = spans at hordered hinside ⊢
  have hwindows := windows_of contextCharacters hinside hordered
  obtain ⟨all, hall, hshows, hcollect⟩ := collectFragments_ok hordered fun w hw =>
    ⟨hwindows.nonempty w hw, hwindows.inside w hw, hwindows.filled w hw⟩
  rw [hall] at hwindows
  have hrange : ∀ fragment ∈ all, fragment.range ∈ all.map (·.range) :=
    fun _ => List.mem_map_of_mem
  have hseparated : all.Pairwise fun a b => a.endOffset ≤ b.startOffset :=
    List.pairwise_map.mp hwindows.separated
  have hcontains : ∀ span ∈ spans, ∃ fragment ∈ all,
      fragment.startOffset ≤ span.startOffset ∧ span.endOffset ≤ fragment.endOffset := by
    intro span hspan
    obtain ⟨_, hw, hin⟩ := hwindows.contains span hspan
    obtain ⟨fragment, hfragment, rfl⟩ := List.mem_map.mp hw
    exact ⟨fragment, hfragment, hin⟩
  refine ⟨all, fun maxFragmentsPerField => ?_, hseparated, fun fragment hfragment => ?_,
    fun span hspan => ?_, ?_⟩
  · unfold fragments
    split
    · rename_i hnil
      -- Without spans there are no windows.
      have hempty : all = [] := by
        rw [hnil] at hall
        exact List.map_eq_nil_iff.mp hall.symm
      rw [hempty, List.take_nil]
    · rw [hcollect _ _ (Nat.zero_le _), List.length_nil, Nat.sub_zero, List.nil_append]
  · exact ⟨hwindows.nonempty _ (hrange fragment hfragment),
      hwindows.inside _ (hrange fragment hfragment),
      hwindows.start_whole _ (hrange fragment hfragment),
      hwindows.end_whole _ (hrange fragment hfragment), (hshows fragment hfragment).text⟩
  · obtain ⟨fragment, hfragment, hin⟩ := hcontains span hspan
    refine ⟨fragment, ⟨hfragment, hin⟩, ?_⟩
    rintro other ⟨hother, hin'⟩
    by_contra hne
    have hnonempty := span.nonempty
    rcases pairwise_related hseparated hother hfragment hne with hle | hle <;> omega
  · have hflat := flatMap_filter_contained (fun span _ => span.nonempty) hordered hseparated
      hcontains
    calc
      all.flatMap (·.spans) = all.flatMap fun fragment => containedSpans spans fragment.range :=
        List.flatMap_congr fun fragment hfragment => (hshows fragment hfragment).spans
      _ = spans := hflat

/-- A word and a character outside the basic plane. -/
def wordAndPair : JString := [97, 98, 32, 55357, 56832]

def wordToken : OffsetAnalyzedToken := ⟨[97, 98], 1, 0, 2, by decide, by decide⟩

def pairToken : OffsetAnalyzedToken := ⟨[55357, 56832], 1, 3, 5, by decide, by decide⟩

theorem fragments_complete_wordAndPair :
    ∃ all : List HighlightFragment,
      (∀ maxFragmentsPerField, fragments wordAndPair
        (normalizeSpans [⟨3, 5, by decide⟩, ⟨0, 2, by decide⟩]) 1 maxFragmentsPerField =
          .ok (all.take maxFragmentsPerField)) ∧
      all.flatMap (·.spans) = normalizeSpans [⟨3, 5, by decide⟩, ⟨0, 2, by decide⟩] := by
  have hvalid : validate "text" wordAndPair (some [some wordToken, some pairToken]) =
      .ok [wordToken, pairToken] := rfl
  have hraw : ∀ span ∈ ([⟨3, 5, by decide⟩, ⟨0, 2, by decide⟩] : List HighlightSpan),
      ∃ first ∈ [wordToken, pairToken], ∃ last ∈ [wordToken, pairToken],
        span.startOffset = first.startOffset ∧ span.endOffset = last.endOffset := by
    decide
  obtain ⟨-, -, all, htake, -, -, -, hflat⟩ := fragments_complete hvalid hraw 1
  exact ⟨all, htake, hflat⟩

/-- A context that would cut the pair is widened by its other half. -/
example : windows wordAndPair [⟨0, 2, by decide⟩] 2 = [⟨0, 5⟩] := by decide

end GeneralSearch.Highlight
