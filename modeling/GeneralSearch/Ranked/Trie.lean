import GeneralSearch.Ranked.Input

/-! The updates of the trie: a trie is a finite map from lists of code points to terms, and `with`
and `without` change it at one list only. -/

namespace GeneralSearch.Ranked

open GeneralSearch.Index GeneralSearch.Planner

/-! ### Children -/

namespace TrieChildren

def isEmpty : TrieChildren → Bool
  | nil => true
  | cons .. => false

def get (codePoint : ℕ) : TrieChildren → Option TrieNode
  | nil => none
  | cons point child rest => if codePoint = point then some child else rest.get codePoint

/-- `children.with`. -/
def set (codePoint : ℕ) (child : TrieNode) : TrieChildren → TrieChildren
  | nil => cons codePoint child nil
  | cons point other rest =>
    if codePoint < point then cons codePoint child (cons point other rest)
    else if codePoint = point then cons codePoint child rest
    else cons point other (rest.set codePoint child)

/-- `children.without`. -/
def erase (codePoint : ℕ) : TrieChildren → TrieChildren
  | nil => nil
  | cons point child rest =>
    if codePoint = point then rest else cons point child (rest.erase codePoint)

/-- `without` or `with`, as an update of the child says. -/
def update (codePoint : ℕ) (children : TrieChildren) : Option TrieNode → TrieChildren
  | none => children.erase codePoint
  | some updatedChild => children.set codePoint updatedChild

/-- The code points of the children are above a bound. -/
def Above (bound : ℕ) : TrieChildren → Prop
  | nil => True
  | cons point _ rest => bound < point ∧ rest.Above bound

end TrieChildren

mutual

/-- The children of every node stand in the order of their code points. -/
def TrieNode.Sorted : TrieNode → Prop
  | .node _ children => children.Sorted

def TrieChildren.Sorted : TrieChildren → Prop
  | .nil => True
  | .cons codePoint child rest => child.Sorted ∧ rest.Above codePoint ∧ rest.Sorted

end

namespace TrieChildren

variable {bound codePoint : ℕ} {child : TrieNode}

theorem Above.mono {bound' : ℕ} (hle : bound' ≤ bound) :
    ∀ {children : TrieChildren}, children.Above bound → children.Above bound'
  | nil, _ => trivial
  | cons _ _ _, h => ⟨hle.trans_lt h.1, mono hle h.2⟩

theorem Above.get_eq_none (hle : codePoint ≤ bound) :
    ∀ {children : TrieChildren}, children.Above bound → children.get codePoint = none
  | nil, _ => rfl
  | cons _ _ _, h => by
    rw [get, if_neg (by have := h.1; omega)]
    exact get_eq_none hle h.2

theorem Above.set (hlt : bound < codePoint) :
    ∀ {children : TrieChildren}, children.Above bound → (children.set codePoint child).Above bound
  | nil, _ => ⟨hlt, trivial⟩
  | cons _ _ _, h => by
    unfold TrieChildren.set
    split
    · exact ⟨hlt, h⟩
    · split
      · exact ⟨hlt, h.2⟩
      · exact ⟨h.1, set hlt h.2⟩

theorem Above.erase :
    ∀ {children : TrieChildren}, children.Above bound → (children.erase codePoint).Above bound
  | nil, _ => trivial
  | cons _ _ _, h => by
    unfold TrieChildren.erase
    split
    · exact h.2
    · exact ⟨h.1, erase h.2⟩

/-- The other children are as they were. -/
theorem get_set (other : ℕ) : ∀ {children : TrieChildren}, children.Sorted →
    (children.set codePoint child).get other =
      if other = codePoint then some child else children.get other
  | nil, _ => rfl
  | cons point first rest, h => by
    unfold set
    split
    · rfl
    · split
      · rename_i heq
        subst heq
        rw [get, get]
        split <;> rfl
      · rw [get, get, get_set other h.2.2]
        split_ifs <;> first | rfl | omega

theorem get_erase (other : ℕ) : ∀ {children : TrieChildren}, children.Sorted →
    (children.erase codePoint).get other =
      if other = codePoint then none else children.get other
  | nil, _ => by
    rw [erase, get]
    split <;> rfl
  | cons point first rest, h => by
    unfold erase
    split
    · rename_i heq
      subst heq
      rw [get]
      split
      · exact h.2.1.get_eq_none (by omega)
      · rfl
    · rw [get, get, get_erase other h.2.2]
      split_ifs <;> first | rfl | omega

theorem Sorted.get : ∀ {children : TrieChildren}, children.Sorted →
    children.get codePoint = some child → child.Sorted
  | nil, _, hget => by cases hget
  | cons _ _ _, h, hget => by
    rw [TrieChildren.get] at hget
    split at hget
    · cases hget
      exact h.1
    · exact get h.2.2 hget

theorem Sorted.set (hchild : child.Sorted) : ∀ {children : TrieChildren}, children.Sorted →
    (children.set codePoint child).Sorted
  | nil, _ => ⟨hchild, trivial, trivial⟩
  | cons point _ _, h => by
    unfold TrieChildren.set
    split
    · exact ⟨hchild, ⟨‹_›, h.2.1.mono (by omega)⟩, h⟩
    · split
      · rename_i heq
        exact ⟨hchild, heq ▸ h.2.1, h.2.2⟩
      · exact ⟨h.1, h.2.1.set (by omega), set hchild h.2.2⟩

theorem Sorted.erase : ∀ {children : TrieChildren}, children.Sorted →
    (children.erase codePoint).Sorted
  | nil, _ => trivial
  | cons _ _ _, h => by
    unfold TrieChildren.erase
    split
    · exact h.2.2
    · exact ⟨h.1, h.2.1.erase, erase h.2.2⟩

theorem get_update (other : ℕ) {children : TrieChildren} (h : children.Sorted)
    (updatedChild : Option TrieNode) :
    (children.update codePoint updatedChild).get other =
      if other = codePoint then updatedChild else children.get other := by
  cases updatedChild with
  | none => exact get_erase other h
  | some updatedChild => exact get_set other h

theorem Sorted.update {children : TrieChildren} (h : children.Sorted)
    {updatedChild : Option TrieNode} (hchild : ∀ n ∈ updatedChild, n.Sorted) :
    (children.update codePoint updatedChild).Sorted := by
  cases updatedChild with
  | none => exact h.erase
  | some updatedChild => exact h.set (hchild _ rfl)

theorem get_of_isEmpty : ∀ {children : TrieChildren}, children.isEmpty = true →
    children.get codePoint = none
  | nil, _ => rfl

end TrieChildren

/-! ### Nodes -/

namespace TrieNode

def terminal : TrieNode → Option JString
  | node terminal _ => terminal

def children : TrieNode → TrieChildren
  | node _ children => children

/-- `Node.empty`. -/
def empty : TrieNode := node none .nil

/-- `PersistentCodePointTrie.find`, from an index of the code points on. -/
def find : List ℕ → Option TrieNode → Option JString
  | _, none => none
  | [], some current => current.terminal
  | codePoint :: codePoints, some current => find codePoints (current.children.get codePoint)

/-- `PersistentCodePointTrie.put`. -/
def put (term : JString) : List ℕ → Option TrieNode → TrieNode
  | [], found => node (some term) (found.getD empty).children
  | codePoint :: codePoints, found =>
    let current := found.getD empty
    node current.terminal
      (current.children.set codePoint (put term codePoints (current.children.get codePoint)))

/-- A node, unless it has neither a term nor children. -/
def unlessBare (terminal : Option JString) (children : TrieChildren) : Option TrieNode :=
  if terminal.isNone && children.isEmpty then none else some (node terminal children)

/-- `PersistentCodePointTrie.remove`, which is for terms that are there. -/
def remove : List ℕ → Option TrieNode → Option TrieNode
  | _, none => none
  | [], some current => unlessBare none current.children
  | codePoint :: codePoints, some current =>
    unlessBare current.terminal
      (current.children.update codePoint (remove codePoints (current.children.get codePoint)))

theorem find_none (points : List ℕ) : find points none = none := by
  cases points <;> rfl

/-- The nodes that an update starts from, if there are any, are sorted. -/
def AllSorted (found : Option TrieNode) : Prop := ∀ n ∈ found, n.Sorted

theorem AllSorted.getD {found : Option TrieNode} (h : AllSorted found) :
    (found.getD empty).children.Sorted := by
  cases found with
  | none => trivial
  | some n =>
    cases n
    exact h _ rfl

theorem AllSorted.get {n : TrieNode} (h : n.children.Sorted) (codePoint : ℕ) :
    AllSorted (n.children.get codePoint) :=
  fun _ hget => h.get hget

theorem find_getD (codePoint : ℕ) (points : List ℕ) (found : Option TrieNode) :
    find points ((found.getD empty).children.get codePoint) = find (codePoint :: points) found := by
  cases found with
  | none => exact find_none points
  | some n => rfl

theorem put_sorted (term : JString) (points : List ℕ) {found : Option TrieNode}
    (h : AllSorted found) : (put term points found).Sorted := by
  induction points generalizing found with
  | nil => exact h.getD
  | cons codePoint points ih => exact h.getD.set (ih (.get h.getD codePoint))

/-- `put` changes the trie at the code points of the term only. -/
theorem find_put (term : JString) (points other : List ℕ) {found : Option TrieNode}
    (h : AllSorted found) :
    find other (some (put term points found)) =
      if other = points then some term else find other found := by
  induction points generalizing other found with
  | nil =>
    cases other with
    | nil => rfl
    | cons codePoint other =>
      rw [if_neg (List.cons_ne_nil _ _)]
      exact find_getD codePoint other found
  | cons codePoint points ih =>
    cases other with
    | nil =>
      rw [if_neg (List.cons_ne_nil _ _).symm]
      cases found <;> rfl
    | cons first other =>
      show find other (((found.getD empty).children.set codePoint _).get first) = _
      rw [TrieChildren.get_set first h.getD]
      by_cases heq : first = codePoint
      · subst heq
        rw [if_pos rfl, ih other (.get h.getD first), find_getD]
        simp
      · rw [if_neg heq, find_getD, if_neg fun hcons => heq (List.cons.inj hcons).1]

theorem find_unlessBare (points : List ℕ) (terminal : Option JString) (children : TrieChildren) :
    find points (unlessBare terminal children) = find points (some (node terminal children)) := by
  unfold unlessBare
  split
  · rename_i hbare
    obtain ⟨hterminal, hchildren⟩ := Bool.and_eq_true_iff.mp hbare
    rw [find_none]
    cases points with
    | nil => exact (Option.isNone_iff_eq_none.mp hterminal).symm
    | cons codePoint points =>
      show none = find points (children.get codePoint)
      rw [TrieChildren.get_of_isEmpty hchildren, find_none]
  · rfl

theorem unlessBare_sorted (terminal : Option JString) {children : TrieChildren}
    (h : children.Sorted) : AllSorted (unlessBare terminal children) := by
  intro n hn
  unfold unlessBare at hn
  split at hn
  · cases hn
  · cases hn
    exact h

theorem remove_sorted (points : List ℕ) {found : Option TrieNode} (h : AllSorted found) :
    AllSorted (remove points found) := by
  induction points generalizing found with
  | nil =>
    cases found with
    | none => exact h
    | some n => exact unlessBare_sorted none h.getD
  | cons codePoint points ih =>
    cases found with
    | none => exact h
    | some n => exact unlessBare_sorted _ (h.getD.update (ih (.get h.getD codePoint)))

/-- `remove` changes the trie at the code points of the term only. -/
theorem find_remove (points other : List ℕ) {found : Option TrieNode} (h : AllSorted found) :
    find other (remove points found) = if other = points then none else find other found := by
  induction points generalizing other found with
  | nil =>
    cases found with
    | none =>
      rw [remove, find_none]
      split <;> rfl
    | some n =>
      rw [remove, find_unlessBare]
      cases other with
      | nil => rfl
      | cons codePoint other => rw [if_neg (List.cons_ne_nil _ _)]; rfl
  | cons codePoint points ih =>
    cases found with
    | none =>
      rw [remove, find_none]
      split <;> rfl
    | some n =>
      have hsorted : n.children.Sorted := h.getD
      rw [remove, find_unlessBare]
      cases other with
      | nil => rfl
      | cons first other =>
        show find other ((n.children.update codePoint _).get first) = _
        rw [TrieChildren.get_update first hsorted]
        by_cases heq : first = codePoint
        · subst heq
          rw [if_pos rfl, ih other (.get hsorted first)]
          simp [find]
        · rw [if_neg heq, if_neg fun hcons => heq (List.cons.inj hcons).1]
          rfl

end TrieNode

/-! ### Terms -/

mutual

/-- The terms of a node are what can be found below it. -/
theorem TrieNode.mem_terms {path p : List ℕ} {term : JString} : ∀ {n : TrieNode}, n.Sorted →
    ((p, term) ∈ n.terms path ↔ ∃ rest, p = path ++ rest ∧ TrieNode.find rest (some n) = some term)
  | .node terminal children, h => by
    rw [TrieNode.terms, List.mem_append, TrieChildren.mem_terms h]
    constructor
    · rintro (hmem | ⟨codePoint, rest, rfl, hfind⟩)
      · rw [Option.mem_toList, Option.map_eq_some_iff] at hmem
        obtain ⟨t, rfl, heq⟩ := hmem
        cases heq
        exact ⟨[], (List.append_nil _).symm, rfl⟩
      · exact ⟨codePoint :: rest, rfl, hfind⟩
    · rintro ⟨rest, rfl, hfind⟩
      cases rest with
      | nil =>
        left
        obtain rfl : terminal = some term := hfind
        simp
      | cons codePoint rest => exact .inr ⟨codePoint, rest, rfl, hfind⟩

theorem TrieChildren.mem_terms {path p : List ℕ} {term : JString} :
    ∀ {children : TrieChildren}, children.Sorted →
      ((p, term) ∈ children.terms path ↔ ∃ codePoint rest, p = path ++ codePoint :: rest ∧
        TrieNode.find rest (children.get codePoint) = some term)
  | .nil, _ => by
    rw [TrieChildren.terms]
    refine iff_of_false List.not_mem_nil ?_
    rintro ⟨codePoint, rest, -, hfind⟩
    rw [TrieChildren.get, TrieNode.find_none] at hfind
    cases hfind
  | .cons point child children, h => by
    rw [TrieChildren.terms, List.mem_append, TrieNode.mem_terms h.1, TrieChildren.mem_terms h.2.2]
    constructor
    · rintro (⟨rest, rfl, hfind⟩ | ⟨codePoint, rest, rfl, hfind⟩)
      · exact ⟨point, rest, by simp, by rwa [TrieChildren.get, if_pos rfl]⟩
      · refine ⟨codePoint, rest, rfl, ?_⟩
        rw [TrieChildren.get, if_neg]
        · exact hfind
        · rintro rfl
          rw [h.2.1.get_eq_none le_rfl, TrieNode.find_none] at hfind
          cases hfind
    · rintro ⟨codePoint, rest, rfl, hfind⟩
      rw [TrieChildren.get] at hfind
      split at hfind
      · rename_i heq
        subst heq
        exact .inl ⟨rest, by simp, hfind⟩
      · exact .inr ⟨codePoint, rest, rfl, hfind⟩

end

mutual

/-- Different terms stand at different places. -/
theorem TrieNode.terms_nodup {path : List ℕ} : ∀ {n : TrieNode}, n.Sorted → (n.terms path).Nodup
  | .node terminal children, h => by
    rw [TrieNode.terms, List.nodup_append]
    refine ⟨by cases terminal <;> simp, TrieChildren.terms_nodup h, ?_⟩
    rintro ⟨p, term⟩ hmem e hchildren rfl
    obtain ⟨codePoint, rest, hp, -⟩ := (TrieChildren.mem_terms h).mp hchildren
    rw [Option.mem_toList, Option.map_eq_some_iff] at hmem
    obtain ⟨t, -, heq⟩ := hmem
    cases heq
    simp at hp

theorem TrieChildren.terms_nodup {path : List ℕ} : ∀ {children : TrieChildren}, children.Sorted →
    (children.terms path).Nodup
  | .nil, _ => List.nodup_nil
  | .cons point child children, h => by
    rw [TrieChildren.terms, List.nodup_append]
    refine ⟨TrieNode.terms_nodup h.1, TrieChildren.terms_nodup h.2.2, ?_⟩
    rintro ⟨p, term⟩ hchild e hchildren rfl
    obtain ⟨rest, hp, -⟩ := (TrieNode.mem_terms h.1).mp hchild
    obtain ⟨codePoint, rest', hp', hfind⟩ := (TrieChildren.mem_terms h.2.2).mp hchildren
    obtain ⟨rfl, -⟩ : point = codePoint ∧ rest = rest' := by
      rw [hp, List.append_assoc] at hp'
      exact List.cons.inj (List.append_cancel_left hp')
    rw [h.2.1.get_eq_none le_rfl, TrieNode.find_none] at hfind
    cases hfind

end

/-! ### Updates -/

/-- `PersistentCodePointTrie.with`. -/
def withTerm (root : Option TrieNode) (term : JString) : Except Failure (Option TrieNode) :=
  if term = [] then .error (.illegalArgument "term must not be empty")
  else if (TrieNode.find (codePoints term) root).isSome then .ok root
  else .ok (some (TrieNode.put term (codePoints term) root))

/-- `PersistentCodePointTrie.without`. -/
def withoutTerm (root : Option TrieNode) (term : JString) : Except Failure (Option TrieNode) :=
  if term = [] then .error (.illegalArgument "term must not be empty")
  else if (TrieNode.find (codePoints term) root).isNone then .ok root
  else .ok (TrieNode.remove (codePoints term) root)

/-- The trie stores the terms of a vocabulary, each where its code points lead. -/
structure Stores (root : Option TrieNode) (vocabulary : Finset JString) : Prop where
  nonempty : [] ∉ vocabulary
  sorted : TrieNode.AllSorted root
  find : ∀ points term,
    TrieNode.find points root = some term ↔ term ∈ vocabulary ∧ points = codePoints term

theorem stores_empty : Stores none ∅ where
  nonempty := Finset.notMem_empty _
  sorted := fun _ hn => by cases hn
  find points term := by simp [TrieNode.find_none]

section

variable {root : Option TrieNode} {vocabulary : Finset JString} {term : JString}

theorem Stores.isSome_find (h : Stores root vocabulary) :
    (TrieNode.find (codePoints term) root).isSome ↔ term ∈ vocabulary := by
  rw [Option.isSome_iff_exists]
  constructor
  · rintro ⟨t, hfind⟩
    obtain ⟨ht, hpoints⟩ := (h.find _ t).mp hfind
    exact codePoints_injective hpoints ▸ ht
  · exact fun hterm => ⟨term, (h.find _ _).mpr ⟨hterm, rfl⟩⟩

theorem Stores.withTerm (h : Stores root vocabulary) (hterm : term ≠ []) :
    ∃ root', Ranked.withTerm root term = .ok root' ∧ Stores root' (insert term vocabulary) := by
  unfold Ranked.withTerm
  rw [if_neg hterm]
  split
  · rename_i hfound
    rw [Finset.insert_eq_of_mem (h.isSome_find.mp hfound)]
    exact ⟨root, rfl, h⟩
  · refine ⟨_, rfl, ?_, ?_, fun points t => ?_⟩
    · rw [Finset.mem_insert, not_or]
      exact ⟨hterm.symm, h.nonempty⟩
    · rintro _ ⟨⟩
      exact TrieNode.put_sorted term _ h.sorted
    · rw [TrieNode.find_put term _ points h.sorted, Finset.mem_insert]
      split
      · rename_i heq
        rw [heq, codePoints_injective.eq_iff, Option.some.injEq, eq_comm]
        exact ⟨fun ht => ⟨.inl ht, ht⟩, And.right⟩
      · rename_i hne
        rw [h.find]
        refine and_congr_left fun hpoints => ⟨.inr, ?_⟩
        rintro (rfl | ht)
        · exact absurd hpoints hne
        · exact ht

theorem Stores.withoutTerm (h : Stores root vocabulary) (hterm : term ≠ []) :
    ∃ root', Ranked.withoutTerm root term = .ok root' ∧ Stores root' (vocabulary.erase term) := by
  unfold Ranked.withoutTerm
  rw [if_neg hterm]
  split
  · rename_i hnone
    have habsent : term ∉ vocabulary := by
      rw [← h.isSome_find, Option.isNone_iff_eq_none.mp hnone]
      exact Bool.false_ne_true
    rw [Finset.erase_eq_of_notMem habsent]
    exact ⟨root, rfl, h⟩
  · refine ⟨_, rfl, fun hmem => h.nonempty (Finset.mem_of_mem_erase hmem),
      TrieNode.remove_sorted _ h.sorted, fun points t => ?_⟩
    rw [TrieNode.find_remove _ points h.sorted, Finset.mem_erase]
    split
    · rename_i heq
      refine iff_of_false (Option.some_ne_none t).symm ?_
      rintro ⟨⟨hne, -⟩, hpoints⟩
      exact hne (codePoints_injective (hpoints.symm.trans heq))
    · rename_i hne
      rw [h.find]
      refine and_congr_left fun hpoints => ⟨fun ht => ⟨?_, ht⟩, And.right⟩
      rintro rfl
      exact hne hpoints

/-- There is a trie for every vocabulary of terms. -/
theorem exists_stores (vocabulary : Finset JString) (h : [] ∉ vocabulary) :
    ∃ root, Stores root vocabulary := by
  induction vocabulary using Finset.induction_on with
  | empty => exact ⟨none, stores_empty⟩
  | insert term vocabulary _ ih =>
    rw [Finset.mem_insert, not_or] at h
    obtain ⟨root, hroot⟩ := ih h.2
    obtain ⟨root', -, hstores⟩ := hroot.withTerm (Ne.symm h.1)
    exact ⟨root', hstores⟩

/-- What can be found decides what is stored. -/
theorem Stores.congr {root' : Option TrieNode} (h : Stores root vocabulary)
    (hsorted : TrieNode.AllSorted root')
    (hfind : ∀ points, TrieNode.find points root' = TrieNode.find points root) :
    Stores root' vocabulary where
  nonempty := h.nonempty
  sorted := hsorted
  find points term := by rw [hfind, h.find]

/-- A trie stores one vocabulary. -/
theorem Stores.unique {vocabulary' : Finset JString} (h : Stores root vocabulary)
    (h' : Stores root vocabulary') : vocabulary = vocabulary' := by
  ext term
  rw [← h.isSome_find, h'.isSome_find]

theorem Stores.mem_terms (h : Stores root vocabulary) {path : List ℕ} :
    (path, term) ∈ (root.map (TrieNode.terms [])).getD [] ↔
      term ∈ vocabulary ∧ path = codePoints term := by
  rw [← h.find]
  cases root with
  | none => simp [TrieNode.find_none]
  | some n =>
    rw [Option.map_some, Option.getD_some, TrieNode.mem_terms (h.sorted n rfl)]
    simp

theorem Stores.nodup (h : Stores root vocabulary) :
    ((root.map (TrieNode.terms [])).getD []).Nodup := by
  cases root with
  | none => exact List.nodup_nil
  | some n => exact TrieNode.terms_nodup (h.sorted n rfl)

end

end GeneralSearch.Ranked
