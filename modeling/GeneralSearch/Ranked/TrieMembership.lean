import GeneralSearch.Lib.Exec
import GeneralSearch.Ranked.TrieUpdate

/-! `PersistentCodePointTrie` as a set of terms: over every sequence of updates it holds the terms
that they denote, with their number, and the bulk update of a map gives what the single updates give
one after the other. -/

namespace GeneralSearch.Ranked

open GeneralSearch.Index GeneralSearch.Lib GeneralSearch.Planner

/-- `PersistentCodePointTrie`. -/
structure PersistentCodePointTrie where
  root : Option TrieNode
  size : ℤ

namespace PersistentCodePointTrie

def empty : PersistentCodePointTrie := ⟨none, 0⟩

/-- `Math.addExact` of `int`s. -/
def addExact (size delta : ℤ) : Except Failure ℤ :=
  if -2 ^ 31 ≤ size + delta ∧ size + delta < 2 ^ 31 then .ok (size + delta) else .error .arithmetic

/-- `PersistentCodePointTrie.with`. -/
def withTerm (trie : PersistentCodePointTrie) (term : JString) :
    Except Failure PersistentCodePointTrie := do
  let root ← Ranked.withTerm trie.root term
  if (TrieNode.find (codePoints term) trie.root).isSome then return trie
  return ⟨root, ← addExact trie.size 1⟩

/-- `PersistentCodePointTrie.without`. -/
def withoutTerm (trie : PersistentCodePointTrie) (term : JString) :
    Except Failure PersistentCodePointTrie := do
  let root ← Ranked.withoutTerm trie.root term
  if (TrieNode.find (codePoints term) trie.root).isNone then return trie
  return ⟨root, trie.size - 1⟩

/-- A term is put in or taken out. -/
def withChange (trie : PersistentCodePointTrie) (entry : JString × Bool) :
    Except Failure PersistentCodePointTrie :=
  if entry.2 then trie.withTerm entry.1 else trie.withoutTerm entry.1

/-- One round of the loop over the entries: the changes so far and the size after them. -/
def scan (root : Option TrieNode) (changes : List MembershipChange × ℤ) (entry : JString × Bool) :
    Except Failure (List MembershipChange × ℤ) :=
  if entry.1 = [] then .error (.illegalArgument "term must not be empty")
  else if (TrieNode.find (codePoints entry.1) root).isSome = entry.2 then .ok changes
  else do
    let size ← addExact changes.2 (if entry.2 then 1 else -1)
    return (changes.1 ++ [⟨entry.1, codePoints entry.1, entry.2⟩], size)

/-- `PersistentCodePointTrie.withMembershipChanges`, over the entries of the map in its order. -/
def withMembershipChanges (trie : PersistentCodePointTrie)
    (membershipByTerm : List (JString × Bool)) : Except Failure PersistentCodePointTrie :=
  if membershipByTerm.length ≤ 2 then membershipByTerm.foldlM withChange trie
  else do
    let (changes, updatedSize) ← membershipByTerm.foldlM (scan trie.root) ([], trie.size)
    if changes.isEmpty then return trie
    let sorted := changes.insertionSort fun left right => (left.order right).isLE
    let levels := (changes.map (·.codePoints.length)).max?.getD 0 + 1
    return ⟨TrieNode.update levels trie.root sorted 0, updatedSize⟩

/-- The terms in the order of the walk, each with the code points that lead to it. -/
def terms (trie : PersistentCodePointTrie) : List (List ℕ × JString) :=
  (trie.root.map (TrieNode.terms [])).getD []

/-- `PersistentCodePointTrie.nodeForPrefix`, from a node on. -/
def nodeForPrefix : List ℕ → Option TrieNode → Option TrieNode
  | _, none => none
  | [], some node => some node
  | point :: points, some node => nodeForPrefix points (node.children.get point)

/-- The trie stores the terms of a vocabulary, without bare nodes and with their number. -/
structure Represents (trie : PersistentCodePointTrie) (vocabulary : Finset JString) : Prop where
  stores : Stores trie.root vocabulary
  pruned : TrieNode.AllPruned trie.root
  size : trie.size = vocabulary.card
  small : trie.size < 2 ^ 31

/-- The vocabulary after a change. -/
def changed (vocabulary : Finset JString) (entry : JString × Bool) : Finset JString :=
  if entry.2 then insert entry.1 vocabulary else vocabulary.erase entry.1

/-- The root after a change that takes effect. -/
def changedRoot (root : Option TrieNode) (entry : JString × Bool) : Option TrieNode :=
  if entry.2 then some (TrieNode.put entry.1 (codePoints entry.1) root)
  else TrieNode.remove (codePoints entry.1) root

variable {trie trie' : PersistentCodePointTrie} {vocabulary : Finset JString} {term : JString}
  {entry : JString × Bool} {root : Option TrieNode}

theorem represents_empty : empty.Represents ∅ where
  stores := stores_empty
  pruned := fun _ h => by cases h
  size := rfl
  small := by decide

theorem addExact_eq {size delta : ℤ} (hlow : -2 ^ 31 ≤ size + delta) (hhigh : size + delta < 2 ^ 31) :
    addExact size delta = .ok (size + delta) := if_pos ⟨hlow, hhigh⟩

/-- A change of a term: nothing when it is as it should be already. -/
theorem withChange_eq (hterm : entry.1 ≠ []) :
    trie.withChange entry =
      if (TrieNode.find (codePoints entry.1) trie.root).isSome = entry.2 then .ok trie
      else (if entry.2 then addExact trie.size 1 else .ok (trie.size - 1)) >>= fun size =>
        .ok ⟨changedRoot trie.root entry, size⟩ := by
  obtain ⟨term, present⟩ := entry
  unfold withChange changedRoot withTerm withoutTerm Ranked.withTerm Ranked.withoutTerm
  rw [if_neg hterm, if_neg hterm]
  cases present <;> cases hfound : TrieNode.find (codePoints term) trie.root <;> rfl

theorem withChange_nil {present : Bool} :
    trie.withChange ([], present) = .error (.illegalArgument "term must not be empty") := by
  cases present <;> rfl

/-- A change that takes effect is seen at its own term only. -/
theorem find_changedRoot (h : TrieNode.AllSorted root) (points : List ℕ) :
    TrieNode.find points (changedRoot root entry) =
      MembershipChange.on 0 points (TrieNode.find points root)
        ⟨entry.1, codePoints entry.1, entry.2⟩ := by
  unfold changedRoot MembershipChange.on
  rw [List.drop_zero]
  cases entry.2 with
  | true => simp [TrieNode.find_put _ _ _ h, eq_comm]
  | false => simp [TrieNode.find_remove _ _ h, eq_comm]

theorem Represents.changedRoot (h : trie.Represents vocabulary) (hterm : entry.1 ≠ [])
    (heffect : (TrieNode.find (codePoints entry.1) trie.root).isSome ≠ entry.2) :
    Stores (changedRoot trie.root entry) (changed vocabulary entry) ∧
      TrieNode.AllPruned (changedRoot trie.root entry) ∧
      ((changed vocabulary entry).card : ℤ) = trie.size + if entry.2 then 1 else -1 := by
  obtain ⟨term, present⟩ := entry
  rw [h.size]
  cases present with
  | true =>
    have hfound : ¬(TrieNode.find (codePoints term) trie.root).isSome = true := heffect
    obtain ⟨root, hroot, hstores⟩ := h.stores.withTerm hterm
    unfold Ranked.withTerm at hroot
    rw [if_neg hterm, if_neg hfound] at hroot
    cases hroot
    refine ⟨hstores, ?_, ?_⟩
    · rintro _ ⟨⟩
      exact TrieNode.put_pruned term _ h.pruned
    · have hnew : term ∉ vocabulary := mt h.stores.isSome_find.mpr hfound
      exact congrArg Int.ofNat (Finset.card_insert_of_notMem hnew)
  | false =>
    have hfound : ¬(TrieNode.find (codePoints term) trie.root).isNone = true := by
      simpa using heffect
    obtain ⟨root, hroot, hstores⟩ := h.stores.withoutTerm hterm
    unfold Ranked.withoutTerm at hroot
    rw [if_neg hterm, if_neg hfound] at hroot
    cases hroot
    refine ⟨hstores, TrieNode.remove_pruned _ h.pruned, ?_⟩
    have hold : term ∈ vocabulary := h.stores.isSome_find.mp
      (Option.isSome_iff_ne_none.mpr (by simpa using heffect))
    have hcard := Finset.card_erase_add_one hold
    show ((vocabulary.erase term).card : ℤ) = vocabulary.card + -1
    omega

theorem Represents.changed_eq (h : trie.Represents vocabulary)
    (hsame : (TrieNode.find (codePoints entry.1) trie.root).isSome = entry.2) :
    changed vocabulary entry = vocabulary := by
  unfold changed
  split
  · next hpresent =>
    exact Finset.insert_eq_of_mem (h.stores.isSome_find.mp (hsame.trans hpresent))
  · next habsent =>
    refine Finset.erase_eq_of_notMem fun hmem => habsent ?_
    rw [← hsame]
    exact h.stores.isSome_find.mpr hmem

theorem Represents.withChange (h : trie.Represents vocabulary)
    (hok : trie.withChange entry = .ok trie') : trie'.Represents (changed vocabulary entry) := by
  have hterm : entry.1 ≠ [] := by
    intro hnil
    obtain ⟨term, present⟩ := entry
    subst hnil
    rw [withChange_nil] at hok
    cases hok
  rw [withChange_eq hterm] at hok
  split at hok
  · next hsame =>
    cases hok
    rwa [h.changed_eq hsame]
  · next heffect =>
    obtain ⟨size, hsize, hresult⟩ := bind_eq_ok.mp hok
    obtain ⟨hstores, hpruned, hcard⟩ := h.changedRoot hterm heffect
    have hsmall := h.small
    cases hresult
    split at hsize
    · next hpresent =>
      unfold addExact at hsize
      split at hsize
      · cases hsize
        rw [if_pos hpresent] at hcard
        exact ⟨hstores, hpruned, hcard.symm, by simp only; omega⟩
      · cases hsize
    · next habsent =>
      cases hsize
      rw [if_neg habsent] at hcard
      exact ⟨hstores, hpruned, by rw [hcard]; rfl, by simp only; omega⟩

/-- What the loop over the entries has gathered, beside the trie after the single changes. -/
structure Scanned (trie : PersistentCodePointTrie) (vocabulary : Finset JString)
    (seen : List (JString × Bool)) (gathered : List MembershipChange × ℤ)
    (trie' : PersistentCodePointTrie) : Prop where
  represents : trie'.Represents (seen.foldl changed vocabulary)
  size : gathered.2 = trie'.size
  effective : (gathered.1.map fun change => (change.term, change.present)).Sublist seen
  spelled : ∀ change ∈ gathered.1, change.codePoints = codePoints change.term
  find : ∀ points, TrieNode.find points trie'.root =
    gathered.1.foldl (MembershipChange.on 0 points) (TrieNode.find points trie.root)

variable {seen : List (JString × Bool)} {gathered : List MembershipChange × ℤ}

/-- A term that has not come yet is as it was. -/
theorem Scanned.find_of_new (h : Scanned trie vocabulary seen gathered trie')
    (hnew : entry.1 ∉ seen.map Prod.fst) :
    TrieNode.find (codePoints entry.1) trie'.root =
      TrieNode.find (codePoints entry.1) trie.root := by
  rw [h.find, MembershipChange.foldl_on_of_ne]
  intro change hchange heq
  rw [List.drop_zero, h.spelled change hchange] at heq
  have hmem := h.effective.subset (List.mem_map_of_mem hchange)
  rw [codePoints_injective heq] at hmem
  exact hnew (List.mem_map.mpr ⟨_, hmem, rfl⟩)

/-- A round of the loop goes as the single change does. -/
theorem Scanned.agree (h : Scanned trie vocabulary seen gathered trie')
    (hnew : entry.1 ∉ seen.map Prod.fst) :
    Agree (Scanned trie vocabulary (seen ++ [entry])) (scan trie.root gathered entry)
      (trie'.withChange entry) := by
  unfold scan
  by_cases hterm : entry.1 = []
  · obtain ⟨term, present⟩ := entry
    obtain rfl : term = [] := hterm
    rw [if_pos rfl, withChange_nil]
    rfl
  rw [if_neg hterm, ← h.find_of_new hnew]
  by_cases hsame : (TrieNode.find (codePoints entry.1) trie'.root).isSome = entry.2
  · rw [if_pos hsame, withChange_eq hterm, if_pos hsame]
    refine ⟨?_, h.size, h.effective.trans (List.sublist_append_left ..), h.spelled, h.find⟩
    rw [List.foldl_concat, h.represents.changed_eq hsame]
    exact h.represents
  have hsmall := h.represents.small
  have hnonneg : 0 ≤ trie'.size := by
    rw [h.represents.size]
    exact Int.natCast_nonneg _
  have hsizes : addExact gathered.2 (if entry.2 then 1 else -1) =
      if entry.2 then addExact trie'.size 1 else .ok (trie'.size - 1) := by
    rw [h.size]
    split
    · rfl
    · exact addExact_eq (by omega) (by omega)
  rw [if_neg hsame, hsizes]
  have hchange := @withChange_eq trie' entry hterm
  rw [if_neg hsame] at hchange
  cases hsize : (if entry.2 then addExact trie'.size 1 else .ok (trie'.size - 1)) with
  | error e =>
    rw [hchange, hsize]
    rfl
  | ok size =>
    rw [hsize] at hchange
    rw [hchange]
    refine ⟨?_, rfl, ?_, ?_, fun points => ?_⟩
    · rw [List.foldl_concat]
      exact h.represents.withChange hchange
    · rw [List.map_append]
      exact h.effective.append_right [entry]
    · intro change hmem
      obtain hold | rfl := List.mem_append.mp hmem |>.imp_right List.mem_singleton.mp
      · exact h.spelled change hold
      · rfl
    · rw [List.foldl_concat, ← h.find]
      exact find_changedRoot h.represents.stores.sorted points

/-! ### The bulk update -/

theorem length_lt_levels {changes : List MembershipChange} {change : MembershipChange}
    (h : change ∈ changes) :
    change.codePoints.length < (changes.map (·.codePoints.length)).max?.getD 0 + 1 := by
  have hmem : change.codePoints.length ∈ changes.map (·.codePoints.length) :=
    List.mem_map_of_mem h
  cases hmax : (changes.map (·.codePoints.length)).max? with
  | none =>
    rw [List.max?_eq_none_iff] at hmax
    rw [hmax] at hmem
    cases hmem
  | some levels =>
    have := (List.max?_le_iff hmax).mp le_rfl _ hmem
    rw [Option.getD_some]
    omega

/-- Different terms have different code points. -/
theorem Scanned.nodup (h : Scanned trie vocabulary seen gathered trie')
    (hnodup : (seen.map Prod.fst).Nodup) : (gathered.1.map (·.codePoints)).Nodup := by
  have hterms : (gathered.1.map (·.term)).Nodup := by
    have hsub := h.effective.map Prod.fst
    rw [List.map_map] at hsub
    exact hnodup.sublist hsub
  have hpoints : gathered.1.map (·.codePoints) = (gathered.1.map (·.term)).map codePoints := by
    rw [List.map_map]
    exact List.map_congr_left h.spelled
  rw [hpoints]
  exact hterms.map codePoints_injective

/-- The sorted changes are what the bulk update starts from. -/
theorem ordered_insertionSort {changes : List MembershipChange}
    (h : (changes.map (·.codePoints)).Nodup) :
    TrieNode.Ordered ((changes.map (·.codePoints.length)).max?.getD 0 + 1) 0
      (changes.insertionSort fun left right => (left.order right).isLE) where
  reaches _ _ := Nat.zero_le _
  within change hchange := by
    rw [Nat.zero_add]
    exact length_lt_levels ((List.mem_insertionSort _).mp hchange)
  ordered := by
    have hle := List.pairwise_insertionSort
      (fun left right : MembershipChange => (left.order right).isLE = true) changes
    have hne : (changes.insertionSort fun left right => (left.order right).isLE).Pairwise
        fun left right => left.codePoints ≠ right.codePoints :=
      List.pairwise_map.mp (((List.perm_insertionSort _ changes).map _).nodup_iff.mpr h)
    refine hle.imp₂ (fun left right hle hne => ?_) hne
    rw [List.drop_zero, List.drop_zero]
    cases hc : List.compareLex compare left.codePoints right.codePoints with
    | lt => rfl
    | eq => exact absurd (Std.LawfulEqCmp.eq_of_compare hc) hne
    | gt =>
      rw [MembershipChange.order, hc] at hle
      cases hle

/-- One after the other or in the order of the code points, the changes make the same. -/
theorem foldl_on_insertionSort {changes : List MembershipChange}
    (h : (changes.map (·.codePoints)).Nodup) (points : List ℕ) (found : Option JString) :
    (changes.insertionSort fun left right => (left.order right).isLE).foldl
        (MembershipChange.on 0 points) found =
      changes.foldl (MembershipChange.on 0 points) found := by
  refine ((List.perm_insertionSort _ changes).symm.foldl_eq' ?_ found).symm
  intro left hleft right hright found
  by_cases heq : left.codePoints = right.codePoints
  · rw [List.inj_on_of_nodup_map h hleft hright heq]
  · unfold MembershipChange.on
    by_cases hl : left.codePoints.drop 0 = points
    · have hr : right.codePoints.drop 0 ≠ points := fun hr => heq (hl.trans hr.symm)
      rw [if_pos hl, if_neg hr, if_neg hr, if_pos hl]
    · rw [if_neg hl, if_neg hl]

/-- What the bulk update makes of the gathered changes is what the single changes made. -/
theorem Scanned.represents_update (h : Scanned trie vocabulary seen gathered trie')
    (htrie : trie.Represents vocabulary) (hnodup : (seen.map Prod.fst).Nodup) :
    Represents
      ⟨TrieNode.update ((gathered.1.map (·.codePoints.length)).max?.getD 0 + 1) trie.root
        (gathered.1.insertionSort fun left right => (left.order right).isLE) 0, gathered.2⟩
      (seen.foldl changed vocabulary) := by
  have hpoints := h.nodup hnodup
  obtain ⟨hsorted, hfind⟩ :=
    TrieNode.makes_update (ordered_insertionSort hpoints) trie.root htrie.stores.sorted
  refine ⟨h.represents.stores.congr hsorted fun points => ?_, TrieNode.update_pruned htrie.pruned,
    h.size.trans h.represents.size, h.size ▸ h.represents.small⟩
  rw [hfind, foldl_on_insertionSort hpoints, h.find]

/-- Without a change that takes effect the trie is what the single changes leave. -/
theorem Scanned.represents_same (h : Scanned trie vocabulary seen gathered trie')
    (htrie : trie.Represents vocabulary) (hempty : gathered.1 = []) :
    trie.Represents (seen.foldl changed vocabulary) := by
  have hstores : Stores trie.root (seen.foldl changed vocabulary) := by
    refine h.represents.stores.congr htrie.stores.sorted fun points => ?_
    rw [h.find, hempty]
    rfl
  rwa [← htrie.stores.unique hstores]

/-- The bulk update fails as the single changes fail, and otherwise represents the vocabulary that
they represent. -/
theorem agree_withMembershipChanges (h : trie.Represents vocabulary)
    {membershipByTerm : List (JString × Bool)} (hnodup : (membershipByTerm.map Prod.fst).Nodup) :
    Agree (fun trie trie' : PersistentCodePointTrie =>
        trie.Represents (membershipByTerm.foldl changed vocabulary) ∧
          trie'.Represents (membershipByTerm.foldl changed vocabulary))
      (trie.withMembershipChanges membershipByTerm) (membershipByTerm.foldlM withChange trie) := by
  unfold withMembershipChanges
  split
  · have hsame : Agree
        (fun a b => a = b ∧ Represents a (membershipByTerm.foldl changed vocabulary))
        (membershipByTerm.foldlM withChange trie) (membershipByTerm.foldlM withChange trie) := by
      refine @Agree.foldlM _ _ _ _
        (fun seen a b => a = b ∧ Represents a (seen.foldl changed vocabulary)) _ _ _ _ _ ⟨rfl, h⟩ ?_
      rintro seen entry rest - a _ ⟨rfl, ha⟩
      cases hresult : a.withChange entry with
      | error e => rfl
      | ok a' =>
        refine ⟨rfl, ?_⟩
        rw [List.foldl_concat]
        exact ha.withChange hresult
    exact hsame.mono fun _ _ ⟨heq, ha⟩ => ⟨ha, heq ▸ ha⟩
  · have hscan : Agree (Scanned trie vocabulary membershipByTerm)
        (membershipByTerm.foldlM (scan trie.root) ([], trie.size))
        (membershipByTerm.foldlM withChange trie) := by
      refine Agree.foldlM ⟨h, rfl, List.nil_sublist _, by simp, fun _ => rfl⟩ ?_
      intro seen entry rest hsplit gathered trie' hscanned
      refine hscanned.agree ?_
      rw [← hsplit, List.map_append, List.nodup_append] at hnodup
      exact fun hmem => hnodup.2.2 _ hmem _ (by simp) rfl
    rw [← bind_pure (membershipByTerm.foldlM withChange trie)]
    refine hscan.bind fun ⟨changes, updatedSize⟩ trie' hscanned => ?_
    by_cases hempty : changes.isEmpty = true
    · simp only [if_pos hempty]
      exact ⟨hscanned.represents_same h (List.isEmpty_iff.mp hempty), hscanned.represents⟩
    · simp only [if_neg hempty]
      exact ⟨hscanned.represents_update h hnodup, hscanned.represents⟩

/-! ### The terms of a trie -/

theorem Represents.mem_terms (h : trie.Represents vocabulary) {path : List ℕ} :
    (path, term) ∈ trie.terms ↔ term ∈ vocabulary ∧ path = codePoints term :=
  h.stores.mem_terms

theorem Represents.terms_ordered (h : trie.Represents vocabulary) :
    trie.terms.Pairwise fun a b => List.compareLex compare a.1 b.1 = .lt := by
  unfold terms
  cases hroot : trie.root with
  | none => exact .nil
  | some node => exact TrieNode.terms_ordered (h.stores.sorted node hroot)

/-- The vocabulary decides the trie, down to its nodes. -/
theorem Represents.unique (h : trie.Represents vocabulary) (h' : trie'.Represents vocabulary) :
    trie = trie' := by
  have hfind : ∀ points, TrieNode.find points trie.root = TrieNode.find points trie'.root :=
    fun points => Option.ext fun term => (h.stores.find points term).trans
      (h'.stores.find points term).symm
  have hroot : trie.root = trie'.root := by
    cases hn : trie.root with
    | none =>
      cases hn' : trie'.root with
      | none => rfl
      | some n' =>
        obtain ⟨points, term, hterm⟩ :=
          (h'.pruned n' hn').exists_find (h'.stores.sorted n' hn')
        rw [← hn', ← hfind, hn, TrieNode.find_none] at hterm
        cases hterm
    | some n =>
      obtain ⟨points, term, hterm⟩ := (h.pruned n hn).exists_find (h.stores.sorted n hn)
      cases hn' : trie'.root with
      | none =>
        rw [← hn, hfind, hn', TrieNode.find_none] at hterm
        cases hterm
      | some n' =>
        rw [hn, hn'] at hfind
        rw [TrieNode.ext_find (h.stores.sorted n hn) (h'.stores.sorted n' hn') (h.pruned n hn)
          (h'.pruned n' hn') hfind]
  have hsize : trie.size = trie'.size := by rw [h.size, h'.size]
  cases trie
  cases trie'
  cases hroot
  cases hsize
  rfl

theorem Represents.length_terms (h : trie.Represents vocabulary) :
    trie.terms.length = vocabulary.card := by
  have hnodup : (trie.terms.map Prod.snd).Nodup := by
    refine h.stores.nodup.map_on ?_
    rintro ⟨path, term⟩ hmem ⟨path', term'⟩ hmem' rfl
    rw [(h.mem_terms.mp hmem).2, (h.mem_terms.mp hmem').2]
  have hset : (trie.terms.map Prod.snd).toFinset = vocabulary := by
    ext term
    rw [List.mem_toFinset, List.mem_map]
    constructor
    · rintro ⟨⟨path, _⟩, hmem, rfl⟩
      exact (h.mem_terms.mp hmem).1
    · exact fun hmem => ⟨(codePoints term, term), h.mem_terms.mpr ⟨hmem, rfl⟩, rfl⟩
  rw [← hset, List.toFinset_card_of_nodup hnodup, List.length_map]

/-- A node that a prefix leads to has a term below it. -/
theorem exists_find_of_nodeForPrefix {points : List ℕ} {found : Option TrieNode} {node : TrieNode}
    (hsorted : TrieNode.AllSorted found) (hpruned : TrieNode.AllPruned found)
    (h : nodeForPrefix points found = some node) :
    ∃ rest term, TrieNode.find rest (some node) = some term := by
  induction points generalizing found with
  | nil =>
    cases found with
    | none => cases h
    | some n =>
      obtain rfl : n = node := Option.some.inj h
      exact (hpruned n rfl).exists_find (hsorted n rfl)
  | cons point points ih =>
    cases found with
    | none => cases h
    | some n =>
      have hchildren : n.children.Sorted := hsorted.getD
      have hpruned' : n.children.Pruned := hpruned.getD
      exact ih (.get hchildren point) (.get hpruned' point) h

/-- The walk of a fuzzy expansion goes through the terms in their order. -/
theorem forEachWithinEditDistance_sublist (queryTerm : JString) (maxEdits : ℕ) :
    ((forEachWithinEditDistance trie.root queryTerm maxEdits).map Prod.fst).Sublist
      (trie.terms.map Prod.snd) := by
  unfold forEachWithinEditDistance terms
  split
  · exact List.nil_sublist _
  · next terminal children hroot =>
    rw [hroot, Option.map_some, Option.getD_some, TrieNode.terms, List.map_append]
    exact (TrieChildren.visit_sublist children).trans (List.sublist_append_right ..)

end PersistentCodePointTrie

/-! ### Sequences of updates -/

/-- An update of a trie; the entries of a map have different keys. -/
inductive TrieChange where
  | single (entry : JString × Bool)
  | bulk (membershipByTerm : List (JString × Bool)) (nodup : (membershipByTerm.map Prod.fst).Nodup)

namespace TrieChange

open PersistentCodePointTrie

/-- `with`, `without` and `withMembershipChanges`. -/
def apply (trie : PersistentCodePointTrie) : TrieChange → Except Failure PersistentCodePointTrie
  | single entry => trie.withChange entry
  | bulk membershipByTerm _ => trie.withMembershipChanges membershipByTerm

/-- The set of terms after an update. -/
def denote (vocabulary : Finset JString) : TrieChange → Finset JString
  | single entry => changed vocabulary entry
  | bulk membershipByTerm _ => membershipByTerm.foldl changed vocabulary

variable {trie trie' : PersistentCodePointTrie} {vocabulary : Finset JString}

theorem represents_apply (h : trie.Represents vocabulary) {change : TrieChange}
    (happly : change.apply trie = .ok trie') : trie'.Represents (change.denote vocabulary) := by
  cases change with
  | single entry => exact h.withChange happly
  | bulk membershipByTerm nodup =>
    have hagree := agree_withMembershipChanges h nodup
    rw [show trie.withMembershipChanges membershipByTerm = .ok trie' from happly] at hagree
    cases hsingle : membershipByTerm.foldlM withChange trie with
    | error e =>
      rw [hsingle] at hagree
      cases hagree
    | ok single =>
      rw [hsingle] at hagree
      exact hagree.1

theorem represents_of_foldlM {changes : List TrieChange}
    (h : changes.foldlM apply empty = .ok trie) : trie.Represents (changes.foldl denote ∅) := by
  refine foldlM_ok_induction (P := fun seen trie => Represents trie (seen.foldl denote ∅)) h
    represents_empty ?_
  intro seen change trie trie' hseen happly
  rw [List.foldl_concat]
  exact represents_apply hseen happly

/-- After every sequence of updates from the empty trie, it is the set of terms that the updates
denote: the walk gives each term once in the order of the code points, the size is their number, no
node is without a term below it, and the bulk update of any map does what its single changes do. -/
theorem set_of_foldlM {changes : List TrieChange} (h : changes.foldlM apply empty = .ok trie) :
    (∀ path term, (path, term) ∈ trie.terms ↔
      term ∈ changes.foldl denote ∅ ∧ path = codePoints term) ∧
    trie.terms.Pairwise (fun a b => List.compareLex compare a.1 b.1 = .lt) ∧
    trie.size = trie.terms.length ∧
    (∀ points node, nodeForPrefix points trie.root = some node →
      ∃ rest term, TrieNode.find rest (some node) = some term) ∧
    (∀ queryTerm maxEdits,
      ((forEachWithinEditDistance trie.root queryTerm maxEdits).map Prod.fst).Sublist
        (trie.terms.map Prod.snd)) ∧
    ∀ membershipByTerm : List (JString × Bool), (membershipByTerm.map Prod.fst).Nodup →
      (fun trie : PersistentCodePointTrie => (trie.terms, trie.size)) <$>
          trie.withMembershipChanges membershipByTerm =
        (fun trie : PersistentCodePointTrie => (trie.terms, trie.size)) <$>
          membershipByTerm.foldlM withChange trie := by
  have hrep := represents_of_foldlM h
  refine ⟨fun _ _ => hrep.mem_terms, hrep.terms_ordered, ?_, fun _ _ =>
    exists_find_of_nodeForPrefix hrep.stores.sorted hrep.pruned,
    forEachWithinEditDistance_sublist, fun membershipByTerm hnodup => ?_⟩
  · rw [hrep.size, hrep.length_terms]
  · refine (agree_withMembershipChanges hrep hnodup).map_eq fun a b ⟨ha, hb⟩ => ?_
    rw [ha.unique hb]

/-- A term and its extension go in one map with a third term. -/
theorem set_of_foldlM_bulk :
    ∃ trie : PersistentCodePointTrie,
      [single ([99], true), bulk [([97, 98], true), ([98], true), ([97], true)] (by decide),
        bulk [([99], false), ([97], false), ([100], true)] (by decide)].foldlM apply empty =
          .ok trie ∧
      trie.terms = [([97, 98], [97, 98]), ([98], [98]), ([100], [100])] ∧
      trie.size = trie.terms.length := by
  have hrun : [single ([99], true), bulk [([97, 98], true), ([98], true), ([97], true)] (by decide),
      bulk [([99], false), ([97], false), ([100], true)] (by decide)].foldlM apply empty =
        .ok ⟨some (.node none (.cons 97 (.node none (.cons 98 (.node (some [97, 98]) .nil) .nil))
          (.cons 98 (.node (some [98]) .nil) (.cons 100 (.node (some [100]) .nil) .nil)))), 3⟩ := rfl
  exact ⟨_, hrun, rfl, (set_of_foldlM hrun).2.2.1⟩

end TrieChange

end GeneralSearch.Ranked
