import GeneralSearch.Ranked.Trie
import Mathlib.Data.List.Sort
import Mathlib.Data.List.SplitBy
import Mathlib.Algebra.Ring.Nat
import Mathlib.Algebra.Ring.Int.Defs

/-! The bulk update of the trie.  The changes come sorted by code points, and a node hands every child
the group of changes that lead to it, so what can be found afterwards is what the changes leave one
after the other.  No update leaves a bare node, and the walk keeps the order of the code points. -/

namespace GeneralSearch.Ranked

open GeneralSearch.Index GeneralSearch.Planner

/-- `MembershipChange`. -/
structure MembershipChange where
  term : JString
  codePoints : List ℕ
  present : Bool

namespace MembershipChange

/-- `MembershipChange.ORDER`. -/
def order (left right : MembershipChange) : Ordering :=
  List.compareLex compare left.codePoints right.codePoints

open Std in
instance : TransCmp order where
  eq_swap {left right} :=
    show List.compareLex compare left.codePoints right.codePoints = _ from OrientedCmp.eq_swap
  isLE_trans {left _ right} hleft hright :=
    show (List.compareLex compare left.codePoints right.codePoints).isLE from
      TransCmp.isLE_trans hleft hright

instance : Std.Total fun left right : MembershipChange => (left.order right).isLE = true where
  total left right := by
    have hswap : right.order left = (left.order right).swap := Std.OrientedCmp.eq_swap
    rw [hswap]
    cases left.order right <;> decide

instance : IsTrans MembershipChange fun left right => (left.order right).isLE = true where
  trans _ _ _ := Std.TransCmp.isLE_trans

/-- The code point of a change at a depth that its term reaches. -/
def pointAt (change : MembershipChange) (depth : ℕ) : ℕ := change.codePoints.getD depth 0

/-- What a change makes of the term that was found at `points`, below a node at `depth`. -/
def on (depth : ℕ) (points : List ℕ) (found : Option JString) (change : MembershipChange) :
    Option JString :=
  if change.codePoints.drop depth = points then
    if change.present then some change.term else none
  else found

variable {depth : ℕ} {points : List ℕ} {found : Option JString} {changes : List MembershipChange}

theorem on_of_ne {change : MembershipChange} (h : change.codePoints.drop depth ≠ points) :
    on depth points found change = found := if_neg h

/-- Changes of other terms leave a term alone. -/
theorem foldl_on_of_ne (h : ∀ change ∈ changes, change.codePoints.drop depth ≠ points) :
    changes.foldl (on depth points) found = found := by
  induction changes with
  | nil => rfl
  | cons change changes ih =>
    rw [List.foldl_cons, on_of_ne (h change (by simp))]
    exact ih fun c hc => h c (by simp [hc])

end MembershipChange

namespace TrieNode

/-- The changes of one child after the other: the loop of `update`. -/
def updateGroups (updateChild : Option TrieNode → List MembershipChange → Option TrieNode)
    (depth : ℕ) (children : TrieChildren) (groups : List (List MembershipChange)) :
    TrieChildren :=
  groups.foldl (fun children group =>
    let codePoint := (group.head?.map (·.pointAt depth)).getD 0
    children.update codePoint (updateChild (children.get codePoint) group)) children

/-- `PersistentCodePointTrie.update` for changes that reach fewer than `levels` levels further. -/
def update : ℕ → Option TrieNode → List MembershipChange → ℕ → Option TrieNode
  | 0, found, _, _ => found
  | levels + 1, found, changes, depth =>
    let current := found.getD empty
    let terminalChange := changes.head?.filter (·.codePoints.length = depth)
    let terminal := match terminalChange with
      | none => current.terminal
      | some change => if change.present then some change.term else none
    let rest := if terminalChange.isSome then changes.tail else changes
    let groups := rest.splitBy fun left right => left.pointAt depth == right.pointAt depth
    unlessBare terminal
      (updateGroups (fun child group => update levels child group (depth + 1)) depth
        current.children groups)

/-- A group of changes whose next code point is `codePoint`. -/
def LeadsTo (depth codePoint : ℕ) (group : List MembershipChange) : Prop :=
  ∀ change ∈ group, change.codePoints.drop depth = codePoint :: change.codePoints.drop (depth + 1)

theorem pointAt_eq {change : MembershipChange} {depth codePoint : ℕ} {points : List ℕ}
    (h : change.codePoints.drop depth = codePoint :: points) : change.pointAt depth = codePoint := by
  rw [MembershipChange.pointAt, List.getD_eq_getElem?_getD, ← List.head?_drop, h]
  rfl

/-- An update of a node at `depth` makes the changes of a group one after the other. -/
def Makes (updateNode : Option TrieNode → List MembershipChange → Option TrieNode) (depth : ℕ)
    (group : List MembershipChange) : Prop :=
  ∀ found, AllSorted found → AllSorted (updateNode found group) ∧ ∀ points,
    find points (updateNode found group) =
      group.foldl (MembershipChange.on depth points) (find points found)

/-- The child of a group takes its changes, and the other children none. -/
theorem find_updateGroups {updateChild : Option TrieNode → List MembershipChange → Option TrieNode}
    {depth : ℕ} {groups : List (List MembershipChange)}
    (hgroups : ∀ group ∈ groups, group ≠ [] ∧ (∃ codePoint, LeadsTo depth codePoint group) ∧
      Makes updateChild (depth + 1) group)
    {children : TrieChildren} (h : children.Sorted) :
    (updateGroups updateChild depth children groups).Sorted ∧ ∀ point points,
      find points ((updateGroups updateChild depth children groups).get point) =
        groups.flatten.foldl (MembershipChange.on depth (point :: points))
          (find points (children.get point)) := by
  induction groups generalizing children with
  | nil => exact ⟨h, fun _ _ => rfl⟩
  | cons group groups ih =>
    obtain ⟨hne, ⟨codePoint, hleads⟩, hchild⟩ := hgroups group (by simp)
    have hpoint : (group.head?.map (·.pointAt depth)).getD 0 = codePoint := by
      cases group with
      | nil => exact absurd rfl hne
      | cons change _ => exact pointAt_eq (hleads change (by simp))
    obtain ⟨hsorted, hfind⟩ := hchild (children.get codePoint) (.get (n := .node none children) h _)
    have hupdated := @TrieChildren.Sorted.update codePoint _ h _ hsorted
    have hrest := ih (fun g hg => hgroups g (by simp [hg])) hupdated
    unfold updateGroups at hrest ⊢
    rw [List.foldl_cons, hpoint]
    refine ⟨hrest.1, fun point points => ?_⟩
    rw [hrest.2 point points, List.flatten_cons, List.foldl_append,
      TrieChildren.get_update point h]
    congr 1
    split
    · next heq =>
      rw [hfind, heq]
      refine List.foldl_ext _ _ _ fun found change hchange => ?_
      unfold MembershipChange.on
      rw [hleads change hchange]
      simp
    · next hne =>
      refine (MembershipChange.foldl_on_of_ne fun change hchange heq => hne ?_).symm
      rw [hleads change hchange] at heq
      exact (List.cons.inj heq).1.symm

/-- The changes stand in the order of what is left of their code points at `depth`, which is fewer
than `levels`. -/
structure Ordered (levels depth : ℕ) (changes : List MembershipChange) : Prop where
  reaches : ∀ change ∈ changes, depth ≤ change.codePoints.length
  within : ∀ change ∈ changes, change.codePoints.length < depth + levels
  ordered : changes.Pairwise fun left right =>
    List.compareLex compare (left.codePoints.drop depth) (right.codePoints.drop depth) = .lt

variable {levels depth : ℕ} {changes group : List MembershipChange} {change : MembershipChange}

/-- Only the first change can end at the node. -/
theorem Ordered.drop_ne_nil (h : Ordered levels depth (change :: changes)) :
    ∀ c ∈ changes, c.codePoints.drop depth ≠ [] := by
  intro c hc hnil
  have hlt := (List.pairwise_cons.mp h.ordered).1 c hc
  rw [hnil] at hlt
  cases hdrop : change.codePoints.drop depth with
  | nil =>
    rw [hdrop, List.compareLex_nil_nil] at hlt
    cases hlt
  | cons point points =>
    rw [hdrop, List.compareLex_cons_nil] at hlt
    cases hlt

theorem Ordered.sublist (h : Ordered levels depth changes) (hgroup : group.Sublist changes) :
    Ordered levels depth group where
  reaches c hc := h.reaches c (hgroup.subset hc)
  within c hc := h.within c (hgroup.subset hc)
  ordered := h.ordered.sublist hgroup

theorem drop_eq_cons (h : change.codePoints.drop depth ≠ []) :
    change.codePoints.drop depth =
      change.pointAt depth :: change.codePoints.drop (depth + 1) := by
  have hlt : depth < change.codePoints.length := by
    by_contra hle
    exact h (List.drop_eq_nil_of_le (Nat.le_of_not_lt hle))
  rw [List.drop_eq_getElem_cons hlt, MembershipChange.pointAt, List.getD_eq_getElem?_getD,
    List.getElem?_eq_getElem hlt, Option.getD_some]

/-- The loop of `update` finds the groups of the children. -/
theorem leadsTo_of_mem_splitBy (hrest : ∀ c ∈ changes, c.codePoints.drop depth ≠ [])
    (hgroup : group ∈ changes.splitBy fun left right =>
      left.pointAt depth == right.pointAt depth) :
    group ≠ [] ∧ group.Sublist changes ∧ ∃ codePoint, LeadsTo depth codePoint group := by
  have hne := List.ne_nil_of_mem_splitBy hgroup
  have hsub : group.Sublist changes := by
    have hflatten := List.sublist_flatten_of_mem hgroup
    rwa [List.flatten_splitBy] at hflatten
  have hchain : group.IsChain fun left right => left.pointAt depth = right.pointAt depth :=
    (List.isChain_of_mem_splitBy hgroup).imp fun _ _ => eq_of_beq
  have : IsTrans MembershipChange fun left right => left.pointAt depth = right.pointAt depth :=
    ⟨fun _ _ _ => Eq.trans⟩
  refine ⟨hne, hsub, ?_⟩
  cases group with
  | nil => exact absurd rfl hne
  | cons first others =>
    refine ⟨first.pointAt depth, fun c hc => ?_⟩
    have hpoint : first.pointAt depth = c.pointAt depth := by
      obtain rfl | hc := List.mem_cons.mp hc
      · rfl
      · exact (List.pairwise_cons.mp (List.isChain_iff_pairwise.mp hchain)).1 c hc
    rw [hpoint]
    exact drop_eq_cons (hrest c (hsub.subset hc))

/-- The changes of a group stand in order below its child. -/
theorem Ordered.below {codePoint : ℕ} (h : Ordered (levels + 1) depth group)
    (hleads : LeadsTo depth codePoint group) : Ordered levels (depth + 1) group where
  reaches c hc := by
    have hdrop := congrArg List.length (hleads c hc)
    rw [List.length_drop, List.length_cons] at hdrop
    omega
  within c hc := by
    have := h.within c hc
    omega
  ordered := by
    refine h.ordered.imp_of_mem fun {left right} hleft hright hlt => ?_
    rw [hleads left hleft, hleads right hright, List.compareLex_cons_cons] at hlt
    simpa using hlt

/-- The loop over the changes that go on below a node. -/
theorem find_updateRest {updateChild : Option TrieNode → List MembershipChange → Option TrieNode}
    (h : Ordered (levels + 1) depth changes)
    (hmakes : ∀ group, Ordered levels (depth + 1) group → Makes updateChild (depth + 1) group)
    (hrest : ∀ c ∈ changes, c.codePoints.drop depth ≠ []) {children : TrieChildren}
    (hchildren : children.Sorted) :
    let groups := changes.splitBy fun left right => left.pointAt depth == right.pointAt depth
    (updateGroups updateChild depth children groups).Sorted ∧ ∀ point points,
      find points ((updateGroups updateChild depth children groups).get point) =
        changes.foldl (MembershipChange.on depth (point :: points))
          (find points (children.get point)) := by
  intro groups
  have hgroups : ∀ group ∈ groups, group ≠ [] ∧ (∃ codePoint, LeadsTo depth codePoint group) ∧
      Makes updateChild (depth + 1) group := by
    intro group hgroup
    obtain ⟨hne, hsub, codePoint, hleads⟩ := leadsTo_of_mem_splitBy hrest hgroup
    exact ⟨hne, ⟨codePoint, hleads⟩, hmakes group ((h.sublist hsub).below hleads)⟩
  have hfind := find_updateGroups hgroups hchildren
  rwa [List.flatten_splitBy] at hfind

/-- The bulk update at a node makes its changes one after the other. -/
theorem makes_update (h : Ordered levels depth changes) :
    Makes (fun found changes => update levels found changes depth) depth changes := by
  induction levels generalizing depth changes with
  | zero =>
    cases changes with
    | nil => exact fun found hfound => ⟨hfound, fun _ => rfl⟩
    | cons change changes =>
      have hreaches := h.reaches change (by simp)
      have hwithin := h.within change (by simp)
      omega
  | succ levels ih =>
    intro found hfound
    have hbelow := fun group hgroup => @ih (depth + 1) group hgroup
    simp only [update]
    -- Only the change of the node itself, which comes first, is not for a child.
    by_cases hfirst : ∃ change rest, changes = change :: rest ∧ change.codePoints.length = depth
    · obtain ⟨change, rest, rfl, hlength⟩ := hfirst
      have hdrop : change.codePoints.drop depth = [] := List.drop_eq_nil_of_le hlength.le
      obtain ⟨hsorted, hfind⟩ := find_updateRest (h.sublist (List.sublist_cons_self change rest))
        hbelow h.drop_ne_nil hfound.getD
      simp only [List.head?_cons, Option.filter, hlength, decide_true, if_true, Option.isSome_some,
        List.tail_cons]
      refine ⟨unlessBare_sorted _ hsorted, fun points => ?_⟩
      rw [find_unlessBare, List.foldl_cons]
      cases points with
      | nil =>
        rw [MembershipChange.foldl_on_of_ne h.drop_ne_nil, MembershipChange.on, if_pos hdrop]
        rfl
      | cons point points =>
        rw [MembershipChange.on_of_ne (by rw [hdrop]; exact (List.cons_ne_nil _ _).symm)]
        exact (hfind point points).trans (by rw [find_getD])
    · have hrest : ∀ c ∈ changes, c.codePoints.drop depth ≠ [] := by
        cases changes with
        | nil => simp
        | cons change rest =>
          refine List.forall_mem_cons.mpr ⟨fun hnil => hfirst ⟨change, rest, rfl, ?_⟩, h.drop_ne_nil⟩
          exact (List.drop_eq_nil_iff.mp hnil).antisymm (h.reaches change (by simp))
      have hnone : changes.head?.filter (·.codePoints.length = depth) = none := by
        rw [Option.filter_eq_none_iff]
        intro change hchange hlength
        obtain ⟨rest, rfl⟩ := List.head?_eq_some_iff.mp hchange
        exact hfirst ⟨change, rest, rfl, of_decide_eq_true hlength⟩
      obtain ⟨hsorted, hfind⟩ := find_updateRest h hbelow hrest hfound.getD
      rw [hnone]
      refine ⟨unlessBare_sorted _ hsorted, fun points => ?_⟩
      rw [find_unlessBare]
      cases points with
      | nil =>
        rw [MembershipChange.foldl_on_of_ne hrest]
        cases found <;> rfl
      | cons point points => exact (hfind point points).trans (by rw [find_getD])

end TrieNode

/-! ### No bare nodes -/

mutual

/-- No node has neither a term nor children. -/
def TrieNode.Pruned : TrieNode → Prop
  | .node terminal children => (terminal.isNone && children.isEmpty) = false ∧ children.Pruned

def TrieChildren.Pruned : TrieChildren → Prop
  | .nil => True
  | .cons _ child rest => child.Pruned ∧ rest.Pruned

end

namespace TrieChildren

variable {codePoint : ℕ} {child : TrieNode}

theorem Pruned.get : ∀ {children : TrieChildren}, children.Pruned →
    children.get codePoint = some child → child.Pruned
  | nil, _, hget => by cases hget
  | cons _ _ _, h, hget => by
    rw [TrieChildren.get] at hget
    split at hget
    · cases hget
      exact h.1
    · exact get h.2 hget

theorem Pruned.set (hchild : child.Pruned) : ∀ {children : TrieChildren}, children.Pruned →
    (children.set codePoint child).Pruned
  | nil, _ => ⟨hchild, trivial⟩
  | cons _ _ _, h => by
    unfold TrieChildren.set
    split
    · exact ⟨hchild, h⟩
    · split
      · exact ⟨hchild, h.2⟩
      · exact ⟨h.1, set hchild h.2⟩

theorem Pruned.erase : ∀ {children : TrieChildren}, children.Pruned →
    (children.erase codePoint).Pruned
  | nil, _ => trivial
  | cons _ _ _, h => by
    unfold TrieChildren.erase
    split
    · exact h.2
    · exact ⟨h.1, erase h.2⟩

theorem isEmpty_set {children : TrieChildren} :
    (children.set codePoint child).isEmpty = false := by
  cases children with
  | nil => rfl
  | cons _ _ _ =>
    unfold TrieChildren.set
    split
    · rfl
    · split <;> rfl

theorem Pruned.update {children : TrieChildren} (h : children.Pruned)
    {updatedChild : Option TrieNode} (hchild : ∀ n ∈ updatedChild, n.Pruned) :
    (children.update codePoint updatedChild).Pruned := by
  cases updatedChild with
  | none => exact h.erase
  | some updatedChild => exact h.set (hchild _ rfl)

end TrieChildren

namespace TrieNode

def AllPruned (found : Option TrieNode) : Prop := ∀ n ∈ found, n.Pruned

variable {found : Option TrieNode}

theorem AllPruned.getD (h : AllPruned found) : (found.getD empty).children.Pruned := by
  cases found with
  | none => trivial
  | some n =>
    cases n
    exact (h _ rfl).2

theorem AllPruned.get {children : TrieChildren} (h : children.Pruned) (codePoint : ℕ) :
    AllPruned (children.get codePoint) :=
  fun _ hget => h.get hget

theorem unlessBare_pruned (terminal : Option JString) {children : TrieChildren}
    (h : children.Pruned) : AllPruned (unlessBare terminal children) := by
  intro n hn
  unfold unlessBare at hn
  split at hn
  · cases hn
  · next hbare =>
    cases hn
    exact ⟨(Bool.not_eq_true _).mp hbare, h⟩

theorem put_pruned (term : JString) (points : List ℕ) (h : AllPruned found) :
    (put term points found).Pruned := by
  induction points generalizing found with
  | nil => exact ⟨rfl, h.getD⟩
  | cons codePoint points ih =>
    refine ⟨?_, h.getD.set (ih (.get h.getD codePoint))⟩
    rw [TrieChildren.isEmpty_set, Bool.and_false]

theorem remove_pruned (points : List ℕ) (h : AllPruned found) :
    AllPruned (remove points found) := by
  induction points generalizing found with
  | nil =>
    cases found with
    | none => exact h
    | some n => exact unlessBare_pruned none h.getD
  | cons codePoint points ih =>
    cases found with
    | none => exact h
    | some n => exact unlessBare_pruned _ (h.getD.update (ih (.get h.getD codePoint)))

theorem updateGroups_pruned
    {updateChild : Option TrieNode → List MembershipChange → Option TrieNode} {depth : ℕ}
    (hchild : ∀ group found, AllPruned found → AllPruned (updateChild found group))
    {groups : List (List MembershipChange)} {children : TrieChildren} (h : children.Pruned) :
    (updateGroups updateChild depth children groups).Pruned := by
  induction groups generalizing children with
  | nil => exact h
  | cons group groups ih => exact ih (h.update (hchild group _ (.get h _)))

theorem update_pruned {levels depth : ℕ} {changes : List MembershipChange} (h : AllPruned found) :
    AllPruned (update levels found changes depth) := by
  induction levels generalizing found changes depth with
  | zero => exact h
  | succ levels ih =>
    exact unlessBare_pruned _ (updateGroups_pruned (fun group child hchild => ih hchild) h.getD)

end TrieNode

/-- Below every node there is a term. -/
theorem TrieNode.Pruned.terms_ne_nil {path : List ℕ} : ∀ {n : TrieNode}, n.Pruned →
    n.terms path ≠ []
  | .node (some term) children, _ => by simp [TrieNode.terms]
  | .node none .nil, h => by cases h.1
  | .node none (.cons codePoint child rest), h => by
    rw [TrieNode.terms, TrieChildren.terms]
    simp [terms_ne_nil h.2.1]

/-- From every node some code points lead to a term. -/
theorem TrieNode.Pruned.exists_find {n : TrieNode} (hsorted : n.Sorted) (hpruned : n.Pruned) :
    ∃ points term, TrieNode.find points (some n) = some term := by
  have hne : n.terms [] ≠ [] := hpruned.terms_ne_nil
  obtain ⟨⟨path, term⟩, hmem⟩ := List.exists_mem_of_ne_nil _ hne
  obtain ⟨points, -, hfind⟩ := (TrieNode.mem_terms hsorted).mp hmem
  exact ⟨points, term, hfind⟩

/-! ### Tries with the same terms -/

namespace TrieChildren

variable {children children' : TrieChildren}

/-- The children find the same terms. -/
def SameFinds (children children' : TrieChildren) : Prop :=
  ∀ point points,
    TrieNode.find points (children.get point) = TrieNode.find points (children'.get point)

/-- Where one has a child, the other has one. -/
theorem SameFinds.get_ne_none (h : SameFinds children children') {point : ℕ} {child : TrieNode}
    (hget : children.get point = some child) (hsorted : child.Sorted) (hpruned : child.Pruned) :
    children'.get point ≠ none := by
  obtain ⟨points, term, hfind⟩ := hpruned.exists_find hsorted
  intro hnone
  have hsame := h point points
  rw [hget, hnone, hfind, TrieNode.find_none] at hsame
  cases hsame

theorem le_of_get_ne_none {point codePoint : ℕ} {child : TrieNode} {rest : TrieChildren}
    (habove : rest.Above codePoint) (hget : (cons codePoint child rest).get point ≠ none) :
    codePoint ≤ point := by
  by_contra hlt
  rw [get, if_neg (by omega)] at hget
  exact hget (habove.get_eq_none (by omega))

/-- Behind a common first child the others find the same terms as well. -/
theorem SameFinds.rest {codePoint : ℕ} {child child' : TrieNode} {rest rest' : TrieChildren}
    (h : SameFinds (cons codePoint child rest) (cons codePoint child' rest'))
    (habove : rest.Above codePoint) (habove' : rest'.Above codePoint) : SameFinds rest rest' := by
  intro point points
  by_cases hpoint : point = codePoint
  · rw [hpoint, habove.get_eq_none (Nat.le_refl _), habove'.get_eq_none (Nat.le_refl _)]
  · have hsame := h point points
    rwa [get, get, if_neg hpoint, if_neg hpoint] at hsame

end TrieChildren

mutual

/-- Sorted tries without bare nodes that find the same terms have the same nodes. -/
theorem TrieNode.ext_find : ∀ {n n' : TrieNode}, n.Sorted → n'.Sorted → n.Pruned → n'.Pruned →
    (∀ points, TrieNode.find points (some n) = TrieNode.find points (some n')) → n = n'
  | .node terminal children, .node terminal' children', hsorted, hsorted', hpruned, hpruned',
      hfind => by
    obtain rfl : terminal = terminal' := hfind []
    rw [TrieChildren.ext_find hsorted hsorted' hpruned.2 hpruned'.2 fun point points =>
      hfind (point :: points)]

theorem TrieChildren.ext_find : ∀ {children children' : TrieChildren}, children.Sorted →
    children'.Sorted → children.Pruned → children'.Pruned → children.SameFinds children' →
    children = children'
  | .nil, .nil, _, _, _, _, _ => rfl
  | .nil, .cons point child rest, _, hsorted', _, hpruned', hfind =>
    absurd rfl (TrieChildren.SameFinds.get_ne_none (fun p ps => (hfind p ps).symm)
      (by rw [TrieChildren.get, if_pos rfl]) hsorted'.1 hpruned'.1)
  | .cons point child rest, .nil, hsorted, _, hpruned, _, hfind =>
    absurd rfl (hfind.get_ne_none (by rw [TrieChildren.get, if_pos rfl]) hsorted.1 hpruned.1)
  | .cons point child rest, .cons point' child' rest', hsorted, hsorted', hpruned, hpruned',
      hfind => by
    have hge : point' ≤ point := TrieChildren.le_of_get_ne_none hsorted'.2.1
      (hfind.get_ne_none (by rw [TrieChildren.get, if_pos rfl]) hsorted.1 hpruned.1)
    have hle : point ≤ point' := TrieChildren.le_of_get_ne_none hsorted.2.1
      (TrieChildren.SameFinds.get_ne_none (fun p ps => (hfind p ps).symm)
        (by rw [TrieChildren.get, if_pos rfl]) hsorted'.1 hpruned'.1)
    obtain rfl := Nat.le_antisymm hle hge
    have hchild : child = child' := TrieNode.ext_find hsorted.1 hsorted'.1 hpruned.1 hpruned'.1
      fun points => by simpa [TrieChildren.get] using hfind point points
    have hrest : rest = rest' := TrieChildren.ext_find hsorted.2.2 hsorted'.2.2 hpruned.2
      hpruned'.2 (hfind.rest hsorted.2.1 hsorted'.2.1)
    rw [hchild, hrest]

end

/-! ### The order of the walk -/

theorem compareLex_append_left {prefixPoints left right : List ℕ} :
    List.compareLex compare (prefixPoints ++ left) (prefixPoints ++ right) =
      List.compareLex compare left right := by
  induction prefixPoints with
  | nil => rfl
  | cons point points ih =>
    rw [List.cons_append, List.cons_append, List.compareLex_cons_cons, ih,
      Nat.compare_eq_eq.mpr rfl]
    rfl

theorem TrieChildren.Above.lt_of_get {bound codePoint : ℕ} {children : TrieChildren}
    (h : children.Above bound) (hget : children.get codePoint ≠ none) : bound < codePoint := by
  by_contra hle
  exact hget (h.get_eq_none (Nat.le_of_not_lt hle))

mutual

/-- The walk gives the terms in the order of their code points. -/
theorem TrieNode.terms_ordered {path : List ℕ} : ∀ {n : TrieNode}, n.Sorted →
    (n.terms path).Pairwise fun a b => List.compareLex compare a.1 b.1 = .lt
  | .node terminal children, h => by
    rw [TrieNode.terms, List.pairwise_append]
    refine ⟨by cases terminal <;> simp, TrieChildren.terms_ordered h, ?_⟩
    rintro a hmem ⟨p, term⟩ hchildren
    obtain ⟨codePoint, rest, rfl, -⟩ := (TrieChildren.mem_terms h).mp hchildren
    rw [Option.mem_toList, Option.map_eq_some_iff] at hmem
    obtain ⟨t, -, rfl⟩ := hmem
    have happend := @compareLex_append_left path [] (codePoint :: rest)
    rwa [List.append_nil] at happend

theorem TrieChildren.terms_ordered {path : List ℕ} : ∀ {children : TrieChildren},
    children.Sorted →
    (children.terms path).Pairwise fun a b => List.compareLex compare a.1 b.1 = .lt
  | .nil, _ => .nil
  | .cons point child children, h => by
    rw [TrieChildren.terms, List.pairwise_append]
    refine ⟨TrieNode.terms_ordered h.1, TrieChildren.terms_ordered h.2.2, ?_⟩
    rintro ⟨p, term⟩ hchild ⟨p', term'⟩ hchildren
    obtain ⟨rest, rfl, -⟩ := (TrieNode.mem_terms h.1).mp hchild
    obtain ⟨codePoint, rest', rfl, hfind⟩ := (TrieChildren.mem_terms h.2.2).mp hchildren
    have hlt : point < codePoint := by
      refine h.2.1.lt_of_get fun hnone => ?_
      rw [hnone, TrieNode.find_none] at hfind
      cases hfind
    rw [List.append_assoc, List.singleton_append]
    show List.compareLex compare (path ++ point :: rest) (path ++ codePoint :: rest') = .lt
    rw [compareLex_append_left, List.compareLex_cons_cons, Nat.compare_eq_lt.mpr hlt]
    rfl

end

end GeneralSearch.Ranked
