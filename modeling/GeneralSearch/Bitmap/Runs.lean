import GeneralSearch.Bitmap.Results

/-! Programs over bitmaps and builders.  A program keeps every bitmap it has published and every
builder it has started; `Sets` is what it means for finite sets.  The two agree after every run, and
a bitmap that was published denotes its set in every later heap. -/

namespace GeneralSearch.Bitmap

/-- A call, on the bitmaps and builders of a program by their places. -/
inductive Op where
  | empty
  | withSet (bitmap : ℕ) (docId : Int32)
  | withClear (bitmap : ℕ) (docId : Int32)
  | and (bitmap other : ℕ)
  | or (bitmap other : ℕ)
  | andNot (bitmap other : ℕ)
  | toBuilder (bitmap : ℕ)
  | set (builder : ℕ) (docId : Int32)
  | clear (builder : ℕ) (docId : Int32)
  | orInto (builder other : ℕ)
  | build (builder : ℕ)

structure World where
  heap : Heap
  bitmaps : List ImmutableBitmap
  builders : List ImmutableBitmapBuilder

namespace World

def start : World := ⟨.empty, [], []⟩

/-- The bitmap that a call returns; a call that throws returns none. -/
def publish (w : World) : Except Thrown (ImmutableBitmap × Heap) → World
  | .ok (bitmap, heap) => { w with heap := heap, bitmaps := w.bitmaps ++ [bitmap] }
  | .error _ => w

/-- The builder after a call. -/
def store (w : World) (place : ℕ) : Except Thrown (ImmutableBitmapBuilder × Heap) → World
  | .ok (builder, heap) => { w with heap := heap, builders := w.builders.set place builder }
  | .error _ => w

/-- The call on a bitmap that the program has. -/
def onBitmap (w : World) (place : ℕ) (call : ImmutableBitmap → World) : World :=
  (w.bitmaps[place]?).elim w call

def onBuilder (w : World) (place : ℕ) (call : ImmutableBitmapBuilder → World) : World :=
  (w.builders[place]?).elim w call

def step (w : World) : Op → World
  | .empty => w.publish (.ok (ImmutableBitmap.empty w.heap))
  | .withSet bitmap docId => w.onBitmap bitmap fun b => w.publish (b.withSet w.heap docId)
  | .withClear bitmap docId => w.onBitmap bitmap fun b => w.publish (b.withClear w.heap docId)
  | .and bitmap other =>
    w.onBitmap bitmap fun b => w.onBitmap other fun o => w.publish (b.and w.heap o)
  | .or bitmap other =>
    w.onBitmap bitmap fun b => w.onBitmap other fun o => w.publish (b.or w.heap o)
  | .andNot bitmap other =>
    w.onBitmap bitmap fun b => w.onBitmap other fun o => w.publish (b.andNot w.heap o)
  | .toBuilder bitmap =>
    w.onBitmap bitmap fun b => { w with builders := w.builders ++ [.new b] }
  | .set builder docId => w.onBuilder builder fun b => w.store builder (b.set w.heap docId)
  | .clear builder docId => w.onBuilder builder fun b => w.store builder (b.clear w.heap docId)
  | .orInto builder other =>
    w.onBuilder builder fun b => w.onBitmap other fun o => w.store builder (b.or w.heap o)
  | .build builder =>
    w.onBuilder builder fun b =>
      match b.build w.heap with
      | .ok (bitmap, closed, heap) =>
        ⟨heap, w.bitmaps ++ [bitmap], w.builders.set builder closed⟩
      | .error _ => w

def run (ops : List Op) : World := ops.foldl step start

end World

/-- What a program means for finite sets: the sets of its bitmaps, and those of its builders with
whether they are built. -/
structure Sets where
  bitmaps : List (Finset ℕ)
  builders : List (Finset ℕ × Bool)

namespace Sets

def start : Sets := ⟨[], []⟩

def publish (a : Sets) (s : Finset ℕ) : Sets := { a with bitmaps := a.bitmaps ++ [s] }

def onBitmap (a : Sets) (place : ℕ) (call : Finset ℕ → Sets) : Sets :=
  (a.bitmaps[place]?).elim a call

/-- A call on a builder that is not built. -/
def onBuilder (a : Sets) (place : ℕ) (call : Finset ℕ → Sets) : Sets :=
  (a.builders[place]?).elim a fun builder => if builder.2 then a else call builder.1

def store (a : Sets) (place : ℕ) (s : Finset ℕ) : Sets :=
  { a with builders := a.builders.set place (s, false) }

def step (a : Sets) : Op → Sets
  | .empty => a.publish ∅
  | .withSet bitmap docId => a.onBitmap bitmap fun s =>
    if docId < 0 then a else a.publish (insert docId.toNatClampNeg s)
  | .withClear bitmap docId => a.onBitmap bitmap fun s =>
    if docId < 0 then a else a.publish (s.erase docId.toNatClampNeg)
  | .and bitmap other => a.onBitmap bitmap fun s => a.onBitmap other fun t => a.publish (s ∩ t)
  | .or bitmap other => a.onBitmap bitmap fun s => a.onBitmap other fun t => a.publish (s ∪ t)
  | .andNot bitmap other => a.onBitmap bitmap fun s => a.onBitmap other fun t => a.publish (s \ t)
  | .toBuilder bitmap =>
    a.onBitmap bitmap fun s => { a with builders := a.builders ++ [(s, false)] }
  | .set builder docId => a.onBuilder builder fun s =>
    if docId < 0 then a else a.store builder (insert docId.toNatClampNeg s)
  | .clear builder docId => a.onBuilder builder fun s =>
    if docId < 0 then a else a.store builder (s.erase docId.toNatClampNeg)
  | .orInto builder other => a.onBuilder builder fun s => a.onBitmap other fun t =>
    a.store builder (s ∪ t)
  | .build builder => a.onBuilder builder fun s =>
    ⟨a.bitmaps ++ [s], a.builders.set builder (s, true)⟩

def run (ops : List Op) : Sets := ops.foldl step start

end Sets

/-! ### Lists related place by place -/

section

variable {α β : Type} {R S : α → β → Prop} {xs : List α} {ys : List β} {x : α} {y : β} {k : ℕ}

theorem forall₂_mono (h : List.Forall₂ R xs ys) (hmono : ∀ x ∈ xs, ∀ y, R x y → S x y) :
    List.Forall₂ S xs ys := by
  induction h with
  | nil => exact .nil
  | cons hxy _ ih =>
    obtain ⟨hfirst, hrest⟩ := List.forall_mem_cons.mp hmono
    exact .cons (hfirst _ hxy) (ih hrest)

theorem exists_of_forall₂ (h : List.Forall₂ R xs ys) (hx : x ∈ xs) : ∃ y, R x y := by
  induction h with
  | nil => cases hx
  | cons hxy _ ih =>
    obtain rfl | hx := List.mem_cons.mp hx
    · exact ⟨_, hxy⟩
    · exact ih hx

/-- Related lists have the same places. -/
theorem forall₂_getElem? (h : List.Forall₂ R xs ys) (k : ℕ) :
    xs[k]? = none ∧ ys[k]? = none ∨ ∃ x y, xs[k]? = some x ∧ ys[k]? = some y ∧ R x y := by
  induction h generalizing k with
  | nil => exact .inl ⟨rfl, rfl⟩
  | @cons x y _ _ hxy _ ih =>
    cases k with
    | zero => exact .inr ⟨x, y, rfl, rfl, hxy⟩
    | succ k => exact ih k

theorem forall₂_set (h : List.Forall₂ R xs ys)
    (hother : ∀ l ≠ k, ∀ x y, xs[l]? = some x → R x y → S x y) (hk : S x y) :
    List.Forall₂ S (xs.set k x) (ys.set k y) := by
  induction h generalizing k with
  | nil => exact .nil
  | @cons x' y' xs ys hxy hrest ih =>
    cases k with
    | zero =>
      refine .cons hk (forall₂_mono hrest fun z hz w hzw => ?_)
      obtain ⟨l, hl⟩ := List.getElem?_of_mem hz
      exact hother (l + 1) (Nat.succ_ne_zero l) z w hl hzw
    | succ k =>
      refine .cons (hother 0 (Nat.succ_ne_zero k).symm x' y' rfl hxy) (ih fun l hl => ?_)
      exact hother (l + 1) fun heq => hl (Nat.succ.inj heq)

/-- What is in a place after one of them is set. -/
theorem getElem?_set_eq_some {l : ℕ} {z : α} (h : (xs.set k x)[l]? = some z) :
    l = k ∧ z = x ∨ l ≠ k ∧ xs[l]? = some z := by
  rw [List.getElem?_set] at h
  split at h
  · rename_i heq
    split at h
    · exact .inl ⟨heq.symm, (Option.some.inj h).symm⟩
    · cases h
  · rename_i hne
    exact .inr ⟨Ne.symm hne, h⟩

end

/-! ### Agreement -/

/-- A program and its sets: bitmaps and open builders denote theirs, an address is that of one
bitmap, and a dirty block is that of one open builder and of no bitmap. -/
structure Agrees (w : World) (a : Sets) : Prop where
  bitmaps : List.Forall₂ (Denotes w.heap) w.bitmaps a.bitmaps
  builders : List.Forall₂ (fun b x => b.built = x.2 ∧ (b.built = false → Builds w.heap b x.1))
    w.builders a.builders
  identity : ∀ b ∈ w.bitmaps, ∀ b' ∈ w.bitmaps, b.address = b'.address → b = b'
  addressed : ∀ b ∈ w.bitmaps, b.address < w.heap.next
  based : ∀ b ∈ w.builders, b.base ∈ w.bitmaps
  apart : ∀ b ∈ w.builders, b.built = false → ∀ bitmap ∈ w.bitmaps, Apart b bitmap
  owner : ∀ (k l : ℕ) (b b' : ImmutableBitmapBuilder), w.builders[k]? = some b →
    w.builders[l]? = some b' → b.built = false → b'.built = false →
      ∀ i j r, b.dirtyBlocks.lookup i = some r → b'.dirtyBlocks.lookup j = some r → k = l

theorem agrees_start : Agrees .start .start where
  bitmaps := .nil
  builders := .nil
  identity _ hb := nomatch hb
  addressed _ hb := nomatch hb
  based _ hb := nomatch hb
  apart _ hb := nomatch hb
  owner _ _ _ _ hk := nomatch hk

section

variable {w : World} {a : Sets} {h' : Heap} {b bitmap result : ImmutableBitmap}
  {builder builder' : ImmutableBitmapBuilder} {s : Finset ℕ} {k : ℕ}

theorem Agrees.denotes (hw : Agrees w a) (hb : b ∈ w.bitmaps) : ∃ s, Denotes w.heap b s :=
  exists_of_forall₂ hw.bitmaps hb

theorem Agrees.builds (hw : Agrees w a) (hb : builder ∈ w.builders) (hopen : builder.built = false) :
    ∃ s, Builds w.heap builder s := by
  obtain ⟨x, -, hbuilds⟩ := exists_of_forall₂ hw.builders hb
  exact ⟨x.1, hbuilds hopen⟩

/-- A call that changes no object that was there, and returns a bitmap of the program or a new
one. -/
theorem Agrees.publish (hw : Agrees w a) (hdenotes : Denotes h' result s)
    (hnext : w.heap.next ≤ h'.next) (hframe : ∀ r < w.heap.next, h'.bits r = w.heap.bits r)
    (hfresh : result ∈ w.bitmaps ∨ w.heap.next ≤ result.address ∧ result.address < h'.next)
    (hapart : ∀ builder ∈ w.builders, builder.built = false → Apart builder result) :
    Agrees (w.publish (.ok (result, h'))) (a.publish s) where
  bitmaps := by
    refine List.rel_append (forall₂_mono hw.bitmaps fun b _ t hb => ?_) (.cons hdenotes .nil)
    exact hb.frame hnext fun i block hget => hframe _ (hb.allocated i block hget)
  builders := by
    refine forall₂_mono hw.builders fun builder _ x ⟨hbuilt, hbuilds⟩ => ⟨hbuilt, fun hopen => ?_⟩
    have hb := hbuilds hopen
    obtain ⟨s₀, hbase⟩ := hb.base
    exact hb.frame hnext (fun i r hr => hframe r (hb.allocated i r hr))
      fun i block hget => hframe _ (hbase.allocated i block hget)
  identity b hb b' hb' haddress := by
    have hnew : ∀ b ∈ w.bitmaps, b.address = result.address → b = result := by
      intro b hb haddress
      obtain hold | hlater := hfresh
      · exact hw.identity b hb result hold haddress
      · have := hw.addressed b hb
        omega
    obtain hold | hlast := List.mem_append.mp hb
    · obtain hold' | hlast' := List.mem_append.mp hb'
      · exact hw.identity b hold b' hold' haddress
      · rw [List.mem_singleton.mp hlast'] at haddress ⊢
        exact hnew b hold haddress
    · rw [List.mem_singleton.mp hlast] at haddress ⊢
      obtain hold' | hlast' := List.mem_append.mp hb'
      · exact (hnew b' hold' haddress.symm).symm
      · exact (List.mem_singleton.mp hlast').symm
  addressed b hb := by
    obtain hold | hlast := List.mem_append.mp hb
    · exact (hw.addressed b hold).trans_le hnext
    · rw [List.mem_singleton.mp hlast]
      exact hfresh.elim (fun hold => (hw.addressed _ hold).trans_le hnext) And.right
  based builder hb := List.mem_append_left _ (hw.based builder hb)
  apart builder hb hopen bitmap hm := by
    obtain hold | hlast := List.mem_append.mp hm
    · exact hw.apart builder hb hopen bitmap hold
    · rw [List.mem_singleton.mp hlast]
      exact hapart builder hb hopen
  owner := hw.owner

/-- An operation on a bitmap of the program. -/
theorem Agrees.publishes (hw : Agrees w a) (hb : b ∈ w.bitmaps)
    (hp : Publishes w.heap b h' result s) :
    Agrees (w.publish (.ok (result, h'))) (a.publish s) := by
  refine hw.publish hp.denotes hp.next hp.frame ?_ fun builder hbuilder hopen => ?_
  · obtain rfl | ⟨hnew, hlt, -⟩ := hp.fresh
    · exact .inl hb
    · exact .inr ⟨hnew, hlt⟩
  · have hapart := hw.apart builder hbuilder hopen b hb
    obtain rfl | ⟨-, -, hblocks⟩ := hp.fresh
    · exact hapart
    · obtain ⟨t, hbuilds⟩ := hw.builds hbuilder hopen
      intro i r hr j block hget
      obtain hold | hnew := hblocks j block hget
      · exact hapart i r hr j block hold
      · exact ((hbuilds.allocated i r hr).trans_le hnew).ne'

/-- A step of an open builder of the program. -/
theorem Agrees.store (hw : Agrees w a) (hk : w.builders[k]? = some builder)
    (hopen : builder.built = false) (hbuilds : Builds h' builder' s)
    (hs : Steps w.heap builder h' builder') :
    Agrees (w.store k (.ok (builder', h'))) (a.store k s) := by
  have hmem : builder ∈ w.builders := List.mem_of_getElem? hk
  obtain ⟨s₀, hbefore⟩ := hw.builds hmem hopen
  have hsplit : ∀ c ∈ w.builders.set k builder', c ∈ w.builders ∨ c = builder' := fun c hc =>
    List.mem_or_eq_of_mem_set hc
  -- what the builder has dirty is no block of another one
  have howner : ∀ l ≠ k, ∀ c, w.builders[l]? = some c → c.built = false →
      ∀ i j r, builder'.dirtyBlocks.lookup i = some r → c.dirtyBlocks.lookup j ≠ some r := by
    intro l hl c hc hcopen i j r hi hj
    obtain hold | hnew := hs.dirty i r hi
    · exact hl (hw.owner l k c builder hc hk hcopen hopen j i r hj hold)
    · obtain ⟨t, hcbuilds⟩ := hw.builds (List.mem_of_getElem? hc) hcopen
      exact absurd (hcbuilds.allocated j r hj) (Nat.not_lt.mpr hnew)
  refine ⟨?_, ?_, hw.identity, fun b hb => (hw.addressed b hb).trans_le hs.next, ?_, ?_, ?_⟩
  · refine forall₂_mono hw.bitmaps fun b hb t hdenotes => ?_
    exact hdenotes.steps hs (hw.apart builder hmem hopen b hb)
  · refine forall₂_set hw.builders (fun l hl c x hc ⟨hbuilt, hc'⟩ => ⟨hbuilt, fun hcopen => ?_⟩)
      ⟨hs.built.trans hopen, fun _ => hbuilds⟩
    have hcmem : c ∈ w.builders := List.mem_of_getElem? hc
    obtain ⟨t, hbase⟩ := (hc' hcopen).base
    refine (hc' hcopen).frame hs.next (fun i r hr => ?_) fun i block hget => ?_
    · refine hs.frame r ((hc' hcopen).allocated i r hr) fun j hj => ?_
      exact hl (hw.owner l k c builder hc hk hcopen hopen i j r hr hj)
    · refine hs.frame _ (hbase.allocated i block hget) fun j hj => ?_
      exact hw.apart builder hmem hopen c.base (hw.based c hcmem) j _ hj i block hget rfl
  · intro c hc
    obtain hold | rfl := hsplit c hc
    · exact hw.based c hold
    · exact hs.base ▸ hw.based builder hmem
  · intro c hc hcopen b hb
    obtain hold | rfl := hsplit c hc
    · exact hw.apart c hold hcopen b hb
    · obtain ⟨t, hdenotes⟩ := hw.denotes hb
      exact (hw.apart builder hmem hopen b hb).steps hs hdenotes
  · intro l m c c' hl hm hcopen hcopen' i j r hi hj
    obtain ⟨rfl, rfl⟩ | ⟨hlk, hlold⟩ := getElem?_set_eq_some hl
    · obtain ⟨rfl, -⟩ | ⟨hmk, hmold⟩ := getElem?_set_eq_some hm
      · rfl
      · exact absurd hj (howner m hmk c' hmold hcopen' i j r hi)
    · obtain ⟨rfl, rfl⟩ | ⟨-, hmold⟩ := getElem?_set_eq_some hm
      · exact absurd hi (howner l hlk c hlold hcopen j i r hj)
      · exact hw.owner l m c c' hlold hmold hcopen hcopen' i j r hi hj

/-- A builder that is closed writes no more. -/
theorem Agrees.close (hw : Agrees w a) (hk : w.builders[k]? = some builder) :
    Agrees { w with builders := w.builders.set k { builder with built := true } }
      { a with builders := a.builders.set k (s, true) } := by
  have hsplit : ∀ c ∈ w.builders.set k { builder with built := true },
      c ∈ w.builders ∨ c = { builder with built := true } := fun c hc =>
    List.mem_or_eq_of_mem_set hc
  have hat : ∀ (l : ℕ) (c : ImmutableBitmapBuilder),
      (w.builders.set k { builder with built := true })[l]? = some c → c.built = false →
        w.builders[l]? = some c := by
    intro l c hl hopen
    obtain ⟨-, rfl⟩ | ⟨-, hold⟩ := getElem?_set_eq_some hl
    · cases hopen
    · exact hold
  refine ⟨hw.bitmaps, ?_, hw.identity, hw.addressed, ?_, ?_, ?_⟩
  · exact forall₂_set hw.builders (fun _ _ _ _ _ hx => hx) ⟨rfl, nofun⟩
  · intro c hc
    obtain hold | rfl := hsplit c hc
    · exact hw.based c hold
    · exact hw.based builder (List.mem_of_getElem? hk)
  · intro c hc hopen b hb
    obtain hold | rfl := hsplit c hc
    · exact hw.apart c hold hopen b hb
    · cases hopen
  · intro l m c c' hl hm hopen hopen' i j r hi hj
    exact hw.owner l m c c' (hat l c hl hopen) (hat m c' hm hopen') hopen hopen' i j r hi hj

/-- A builder hands its dirty blocks to the bitmap that it builds, and no other builder has one
of them. -/
theorem Agrees.build (hw : Agrees w a) (hk : w.builders[k]? = some builder)
    (hopen : builder.built = false) (hb : Builds w.heap builder s) :
    ∃ result h', builder.build w.heap = .ok (result, { builder with built := true }, h') ∧
      Agrees ⟨h', w.bitmaps ++ [result], w.builders.set k { builder with built := true }⟩
        ⟨a.bitmaps ++ [s], a.builders.set k (s, true)⟩ := by
  obtain ⟨result, h', hbuild, hdenotes, hbits, hnext, hfresh⟩ := hb.build hopen
  refine ⟨result, h', hbuild, ?_⟩
  have hbase : builder.base ∈ w.bitmaps := hw.based builder (List.mem_of_getElem? hk)
  refine (hw.close hk).publish hdenotes hnext (fun r _ => congrFun hbits r) ?_ ?_
  · obtain rfl | ⟨haddress, hnew, -⟩ := hfresh
    · exact .inl hbase
    · refine .inr ⟨haddress.ge, ?_⟩
      omega
  · intro c hc hcopen
    obtain ⟨l, hl⟩ := List.getElem?_of_mem hc
    obtain ⟨-, rfl⟩ | ⟨hlk, hl⟩ := getElem?_set_eq_some hl
    · cases hcopen
    have hapart := hw.apart c (List.mem_of_getElem? hl) hcopen builder.base hbase
    obtain rfl | ⟨-, -, hblocks⟩ := hfresh
    · exact hapart
    · intro i r hr j block hget hsame
      obtain hold | hdirty := hblocks j block hget
      · exact hapart i r hr j block hold hsame
      · exact hlk (hw.owner l k c builder hl hk hcopen hopen i j r hr (hsame ▸ hdirty))

/-- A new builder has no dirty block. -/
theorem Agrees.toBuilder (hw : Agrees w a) (hb : b ∈ w.bitmaps) (hdenotes : Denotes w.heap b s) :
    Agrees { w with builders := w.builders ++ [.new b] }
      { a with builders := a.builders ++ [(s, false)] } := by
  have hat : ∀ (l : ℕ) (c : ImmutableBitmapBuilder) (i r : ℕ),
      (w.builders ++ [.new b])[l]? = some c → c.dirtyBlocks.lookup i = some r →
        w.builders[l]? = some c := by
    intro l c i r hl hr
    obtain hlt | hge := Nat.lt_or_ge l w.builders.length
    · rwa [List.getElem?_append_left hlt] at hl
    · rw [List.getElem?_append_right hge] at hl
      rw [List.mem_singleton.mp (List.mem_of_getElem? hl)] at hr
      cases hr
  refine ⟨hw.bitmaps, ?_, hw.identity, hw.addressed, ?_, ?_, ?_⟩
  · exact List.rel_append hw.builders (.cons ⟨rfl, fun _ => hdenotes.new⟩ .nil)
  · intro c hc
    obtain hold | hlast := List.mem_append.mp hc
    · exact hw.based c hold
    · rw [List.mem_singleton.mp hlast]
      exact hb
  · intro c hc hopen bitmap hm
    obtain hold | hlast := List.mem_append.mp hc
    · exact hw.apart c hold hopen bitmap hm
    · rw [List.mem_singleton.mp hlast]
      intro i r hr
      cases hr
  · intro l m c c' hl hm hopen hopen' i j r hi hj
    exact hw.owner l m c c' (hat l c i r hl hi) (hat m c' j r hm hj) hopen hopen' i j r hi hj

/-! ### Calls that throw -/

section

variable {h : Heap} {docId : Int32} {other : ImmutableBitmap}

theorem withSet_of_neg (hd : docId < 0) : b.withSet h docId = .error negative := by
  unfold ImmutableBitmap.withSet
  rw [if_pos hd]
  rfl

theorem withClear_of_neg (hd : docId < 0) : b.withClear h docId = .error negative := by
  unfold ImmutableBitmap.withClear
  rw [if_pos hd]
  rfl

theorem requireDocId_of_neg (hopen : builder.built = false) (hd : docId < 0) :
    builder.requireDocId docId = .error negative := by
  unfold ImmutableBitmapBuilder.requireDocId ImmutableBitmapBuilder.ensureOpen
  rw [hopen, if_pos hd]
  rfl

theorem set_of_neg (hopen : builder.built = false) (hd : docId < 0) :
    builder.set h docId = .error negative := by
  unfold ImmutableBitmapBuilder.set
  rw [requireDocId_of_neg hopen hd]
  rfl

theorem clear_of_neg (hopen : builder.built = false) (hd : docId < 0) :
    builder.clear h docId = .error negative := by
  unfold ImmutableBitmapBuilder.clear
  rw [requireDocId_of_neg hopen hd]
  rfl

/-- What a call on a builder throws after `build`. -/
def alreadyBuilt : Thrown := .illegalState "builder has already been built"

theorem ensureOpen_of_built (hbuilt : builder.built = true) :
    builder.ensureOpen = .error alreadyBuilt := by
  unfold ImmutableBitmapBuilder.ensureOpen
  rw [hbuilt]
  rfl

theorem set_of_built (hbuilt : builder.built = true) :
    builder.set h docId = .error alreadyBuilt := by
  unfold ImmutableBitmapBuilder.set ImmutableBitmapBuilder.requireDocId
  rw [ensureOpen_of_built hbuilt]
  rfl

theorem clear_of_built (hbuilt : builder.built = true) :
    builder.clear h docId = .error alreadyBuilt := by
  unfold ImmutableBitmapBuilder.clear ImmutableBitmapBuilder.requireDocId
  rw [ensureOpen_of_built hbuilt]
  rfl

theorem or_of_built (hbuilt : builder.built = true) :
    builder.or h other = .error alreadyBuilt := by
  unfold ImmutableBitmapBuilder.or
  rw [ensureOpen_of_built hbuilt]
  rfl

theorem build_of_built (hbuilt : builder.built = true) :
    builder.build h = .error alreadyBuilt := by
  unfold ImmutableBitmapBuilder.build
  rw [ensureOpen_of_built hbuilt]
  rfl

end

/-! ### Steps -/

theorem Agrees.onBitmap (hw : Agrees w a) {f : ImmutableBitmap → World} {g : Finset ℕ → Sets}
    (hcall : ∀ b ∈ w.bitmaps, ∀ s, Denotes w.heap b s → Agrees (f b) (g s)) :
    Agrees (w.onBitmap k f) (a.onBitmap k g) := by
  unfold World.onBitmap Sets.onBitmap
  obtain ⟨hnone, hnone'⟩ | ⟨b, s, hb, hs, hdenotes⟩ := forall₂_getElem? hw.bitmaps k
  · rw [hnone, hnone']
    exact hw
  · rw [hb, hs]
    exact hcall b (List.mem_of_getElem? hb) s hdenotes

/-- A call on a builder, which does nothing where the builder is built. -/
theorem Agrees.onBuilder (hw : Agrees w a) {f : ImmutableBitmapBuilder → World}
    {g : Finset ℕ → Sets} (hclosed : ∀ b, b.built = true → f b = w)
    (hcall : ∀ b s, w.builders[k]? = some b → b.built = false → Builds w.heap b s →
      Agrees (f b) (g s)) :
    Agrees (w.onBuilder k f) (a.onBuilder k g) := by
  unfold World.onBuilder Sets.onBuilder
  obtain ⟨hnone, hnone'⟩ | ⟨b, x, hb, hx, hbuilt, hbuilds⟩ := forall₂_getElem? hw.builders k
  · rw [hnone, hnone']
    exact hw
  · rw [hb, hx]
    simp only [Option.elim_some]
    cases hopen : b.built with
    | true =>
      rw [if_pos (hbuilt ▸ hopen), hclosed b hopen]
      exact hw
    | false =>
      rw [← hbuilt, hopen, if_neg Bool.false_ne_true]
      exact hcall b x.1 hb hopen (hbuilds hopen)

theorem Agrees.step (hw : Agrees w a) (op : Op) : Agrees (w.step op) (a.step op) := by
  unfold World.step Sets.step
  cases op with
  | empty =>
    have hempty : Publishes w.heap (ImmutableBitmap.empty w.heap).1
        (ImmutableBitmap.empty w.heap).2 (ImmutableBitmap.empty w.heap).1 ∅ := publishes_empty
    refine hw.publish hempty.denotes hempty.next hempty.frame
      (.inr ⟨le_rfl, Nat.lt_succ_self _⟩) fun _ _ _ i r _ j block hget => ?_
    exact absurd hget (PersistentBlockTree.get_empty.trans_ne nofun)
  | withSet bitmap docId =>
    refine hw.onBitmap fun b hb s hdenotes => ?_
    by_cases hd : docId < 0
    · rw [if_pos hd, withSet_of_neg hd]
      exact hw
    · obtain ⟨result, h', hok, hp⟩ := hdenotes.withSet (Int32.not_lt.mp hd)
      rw [if_neg hd, hok]
      exact hw.publishes hb hp
  | withClear bitmap docId =>
    refine hw.onBitmap fun b hb s hdenotes => ?_
    by_cases hd : docId < 0
    · rw [if_pos hd, withClear_of_neg hd]
      exact hw
    · obtain ⟨result, h', hok, hp⟩ := hdenotes.withClear (Int32.not_lt.mp hd)
      rw [if_neg hd, hok]
      exact hw.publishes hb hp
  | and bitmap other =>
    refine hw.onBitmap fun b hb s hdenotes => hw.onBitmap fun o ho t hother => ?_
    obtain ⟨result, h', hok, hp⟩ := hdenotes.and hother
    rw [hok]
    exact hw.publishes hb hp
  | or bitmap other =>
    refine hw.onBitmap fun b hb s hdenotes => hw.onBitmap fun o ho t hother => ?_
    obtain ⟨result, h', hok, hp⟩ := hdenotes.or hother (hw.identity o ho b hb)
    rw [hok]
    exact hw.publishes hb hp
  | andNot bitmap other =>
    refine hw.onBitmap fun b hb s hdenotes => hw.onBitmap fun o ho t hother => ?_
    obtain ⟨result, h', hok, hp⟩ := hdenotes.andNot hother
    rw [hok]
    exact hw.publishes hb hp
  | toBuilder bitmap => exact hw.onBitmap fun b hb s hdenotes => hw.toBuilder hb hdenotes
  | set k docId =>
    refine hw.onBuilder (fun b hbuilt => ?_) fun b s hk hopen hbuilds => ?_
    · rw [set_of_built hbuilt]
      rfl
    · by_cases hd : docId < 0
      · rw [if_pos hd, set_of_neg hopen hd]
        exact hw
      · obtain ⟨b', h', hok, hbuilds', hs⟩ := hbuilds.set hopen (Int32.not_lt.mp hd)
        rw [if_neg hd, hok]
        exact hw.store hk hopen hbuilds' hs
  | clear k docId =>
    refine hw.onBuilder (fun b hbuilt => ?_) fun b s hk hopen hbuilds => ?_
    · rw [clear_of_built hbuilt]
      rfl
    · by_cases hd : docId < 0
      · rw [if_pos hd, clear_of_neg hopen hd]
        exact hw
      · obtain ⟨b', h', hok, hbuilds', hs⟩ := hbuilds.clear hopen (Int32.not_lt.mp hd)
        rw [if_neg hd, hok]
        exact hw.store hk hopen hbuilds' hs
  | orInto k other =>
    refine hw.onBuilder (fun b hbuilt => ?_) fun b s hk hopen hbuilds => ?_
    · unfold World.onBitmap
      cases w.bitmaps[other]? with
      | none => rfl
      | some o =>
        rw [Option.elim_some, or_of_built hbuilt]
        rfl
    · refine hw.onBitmap fun o ho t hother => ?_
      have hbmem : b ∈ w.builders := List.mem_of_getElem? hk
      obtain ⟨b', h', hok, hbuilds', hs⟩ := hbuilds.or hopen hother (hw.apart b hbmem hopen o ho)
        (hw.identity o ho b.base (hw.based b hbmem))
      rw [hok]
      exact hw.store hk hopen hbuilds' hs
  | build k =>
    refine hw.onBuilder (fun b hbuilt => ?_) fun b s hk hopen hbuilds => ?_
    · rw [build_of_built hbuilt]
    · obtain ⟨result, h', hok, hagrees⟩ := hw.build hk hopen hbuilds
      rw [hok]
      exact hagrees

theorem agrees_run (ops : List Op) : Agrees (World.run ops) (Sets.run ops) := by
  have hfold : ∀ w a, Agrees w a → Agrees (ops.foldl World.step w) (ops.foldl Sets.step a) := by
    induction ops with
    | nil => exact fun w a hw => hw
    | cons op ops ih => exact fun w a hw => ih _ _ (hw.step op)
  exact hfold .start .start agrees_start

end

/-! ### Published bitmaps -/

section

variable {w : World} {a : Sets} {k : ℕ}

theorem World.keeps_publish (call : Except Thrown (ImmutableBitmap × Heap)) :
    w.bitmaps <+: (w.publish call).bitmaps := by
  cases call with
  | error _ => exact List.prefix_rfl
  | ok result => exact List.prefix_append _ _

theorem World.keeps_store (call : Except Thrown (ImmutableBitmapBuilder × Heap)) :
    w.bitmaps <+: (w.store k call).bitmaps := by
  cases call <;> exact List.prefix_rfl

theorem World.keeps_onBitmap {call : ImmutableBitmap → World}
    (hcall : ∀ b, w.bitmaps <+: (call b).bitmaps) : w.bitmaps <+: (w.onBitmap k call).bitmaps := by
  unfold World.onBitmap
  cases w.bitmaps[k]? with
  | none => exact List.prefix_rfl
  | some b => exact hcall b

theorem World.keeps_onBuilder {call : ImmutableBitmapBuilder → World}
    (hcall : ∀ b, w.bitmaps <+: (call b).bitmaps) :
    w.bitmaps <+: (w.onBuilder k call).bitmaps := by
  unfold World.onBuilder
  cases w.builders[k]? with
  | none => exact List.prefix_rfl
  | some b => exact hcall b

/-- Every bitmap keeps its place. -/
theorem World.keeps_step (op : Op) : w.bitmaps <+: (w.step op).bitmaps := by
  cases op with
  | empty => exact keeps_publish _
  | withSet | withClear => exact keeps_onBitmap fun _ => keeps_publish _
  | and | or | andNot => exact keeps_onBitmap fun _ => keeps_onBitmap fun _ => keeps_publish _
  | toBuilder => exact keeps_onBitmap fun _ => List.prefix_rfl
  | set | clear => exact keeps_onBuilder fun _ => keeps_store _
  | orInto => exact keeps_onBuilder fun _ => keeps_onBitmap fun _ => keeps_store _
  | build =>
    refine keeps_onBuilder fun b => ?_
    cases b.build w.heap with
    | error _ => exact List.prefix_rfl
    | ok result => exact List.prefix_append _ _

theorem Sets.keeps_onBitmap {call : Finset ℕ → Sets} (hcall : ∀ s, a.bitmaps <+: (call s).bitmaps) :
    a.bitmaps <+: (a.onBitmap k call).bitmaps := by
  unfold Sets.onBitmap
  cases a.bitmaps[k]? with
  | none => exact List.prefix_rfl
  | some s => exact hcall s

theorem Sets.keeps_onBuilder {call : Finset ℕ → Sets}
    (hcall : ∀ s, a.bitmaps <+: (call s).bitmaps) :
    a.bitmaps <+: (a.onBuilder k call).bitmaps := by
  unfold Sets.onBuilder
  cases a.builders[k]? with
  | none => exact List.prefix_rfl
  | some x =>
    rw [Option.elim_some]
    split
    · exact List.prefix_rfl
    · exact hcall x.1

theorem Sets.keeps_ite {c : Prop} [Decidable c] {a' : Sets} (h : a.bitmaps <+: a'.bitmaps) :
    a.bitmaps <+: (if c then a else a').bitmaps := by
  split
  · exact List.prefix_rfl
  · exact h

theorem Sets.keeps_step (op : Op) : a.bitmaps <+: (a.step op).bitmaps := by
  cases op with
  | empty => exact List.prefix_append _ _
  | withSet | withClear =>
    exact keeps_onBitmap fun _ => keeps_ite (List.prefix_append _ _)
  | and | or | andNot =>
    exact keeps_onBitmap fun _ => keeps_onBitmap fun _ => List.prefix_append _ _
  | toBuilder => exact keeps_onBitmap fun _ => List.prefix_rfl
  | set | clear => exact keeps_onBuilder fun _ => keeps_ite List.prefix_rfl
  | orInto => exact keeps_onBuilder fun _ => keeps_onBitmap fun _ => List.prefix_rfl
  | build => exact keeps_onBuilder fun _ => List.prefix_append _ _

theorem keeps_foldl (ops : List Op) :
    w.bitmaps <+: (ops.foldl World.step w).bitmaps ∧
      a.bitmaps <+: (ops.foldl Sets.step a).bitmaps := by
  induction ops generalizing w a with
  | nil => exact ⟨List.prefix_rfl, List.prefix_rfl⟩
  | cons op ops ih =>
    obtain ⟨hw, ha⟩ := @ih (w.step op) (a.step op)
    exact ⟨(w.keeps_step op).trans hw, (a.keeps_step op).trans ha⟩

end

/-- The bitmaps of a program denote their sets in every later heap. -/
theorem denotes_run (before after : List Op) :
    List.Forall₂ (Denotes (World.run (before ++ after)).heap) (World.run before).bitmaps
      (Sets.run before).bitmaps := by
  have hlength := (agrees_run before).bitmaps.length_eq
  have hlater := (agrees_run (before ++ after)).bitmaps
  have hkeeps := @keeps_foldl (World.run before) (Sets.run before) after
  unfold World.run Sets.run at *
  rw [List.foldl_append, List.foldl_append] at hlater
  rw [List.foldl_append]
  obtain ⟨⟨rest, hrest⟩, rest', hrest'⟩ := hkeeps
  rw [← hrest, ← hrest'] at hlater
  have htake := List.forall₂_take (before.foldl World.step .start).bitmaps.length hlater
  rwa [List.take_left, hlength, List.take_left] at htake

/-- A bitmap that can be read as a set of documents.  The count of all of them is no `int`, and
reads -2^31. -/
structure Reads (h : Heap) (b : ImmutableBitmap) (s : Finset ℕ) : Prop where
  get : ∀ docId, b.get h docId = true ↔ 0 ≤ docId ∧ docId.toNatClampNeg ∈ s
  isEmpty : b.isEmpty = true ↔ s = ∅
  cardinality : b.cardinality.toInt = if s = Finset.range (2 ^ 31) then -2 ^ 31 else (s.card : ℤ)
  ascends : (b.forEachSetBit h).Pairwise (· < ·)
  complete : ∀ docId, docId ∈ b.forEachSetBit h ↔ 0 ≤ docId ∧ docId.toNatClampNeg ∈ s

section

variable {h : Heap} {b : ImmutableBitmap} {s : Finset ℕ}

theorem Denotes.toInt_cardinality (hb : Denotes h b s) :
    b.cardinality.toInt = if s = Finset.range (2 ^ 31) then -2 ^ 31 else (s.card : ℤ) := by
  have hsubset : s ⊆ Finset.range (2 ^ 31) := fun d hd => Finset.mem_range.mpr (hb.documents d hd)
  rw [hb.cardinality]
  by_cases hall : s = Finset.range (2 ^ 31)
  · rw [if_pos hall, hall, Finset.card_range]
    rfl
  · have hlt := Finset.card_lt_card (hsubset.ssubset_of_ne hall)
    rw [Finset.card_range] at hlt
    rw [if_neg hall, Int32.toInt_ofNat_of_lt hlt]

theorem Denotes.forEachSetBit_ascends (hb : Denotes h b s) :
    (b.forEachSetBit h).Pairwise (· < ·) := by
  have hsorted := s.sortedLT_sort.pairwise
  rw [← hb.forEachSetBit, List.pairwise_map] at hsorted
  refine hsorted.imp fun hlt => ?_
  rw [Int32.lt_iff_toInt_lt]
  unfold Int32.toNatClampNeg at hlt
  omega

theorem Denotes.mem_forEachSetBit (hb : Denotes h b s) {docId : Int32} :
    docId ∈ b.forEachSetBit h ↔ 0 ≤ docId ∧ docId.toNatClampNeg ∈ s := by
  constructor
  · intro hdoc
    have hmap := List.mem_map_of_mem (f := Int32.toNatClampNeg) hdoc
    rw [hb.forEachSetBit, Finset.mem_sort] at hmap
    exact ⟨hb.forEachSetBit_nonneg docId hdoc, hmap⟩
  · rintro ⟨hd, hmem⟩
    rw [← Finset.mem_sort (· ≤ ·), ← hb.forEachSetBit] at hmem
    obtain ⟨docId', hdoc, hsame⟩ := List.mem_map.mp hmem
    have hd' := hb.forEachSetBit_nonneg docId' hdoc
    have heq : docId' = docId := by
      rw [Int32.le_iff_toInt_le] at hd hd'
      have hzero : (0 : Int32).toInt = 0 := rfl
      rw [hzero] at hd hd'
      unfold Int32.toNatClampNeg at hsame
      rw [← Int32.toInt_inj]
      omega
    exact heq ▸ hdoc

theorem Denotes.reads (hb : Denotes h b s) : Reads h b s :=
  ⟨fun _ => hb.get_iff, hb.isEmpty_iff, hb.toInt_cardinality, hb.forEachSetBit_ascends,
    fun _ => hb.mem_forEachSetBit⟩

end

/-- Bitmaps and builders are finite sets, and no later call changes a bitmap that was published. -/
theorem run_reads (before after : List Op) :
    (World.run before).bitmaps <+: (World.run (before ++ after)).bitmaps ∧
      List.Forall₂ (Reads (World.run (before ++ after)).heap) (World.run before).bitmaps
        (Sets.run before).bitmaps ∧
      List.Forall₂ (fun b x => b.built = x.2 ∧ (x.2 = false → ∀ docId,
          b.get (World.run before).heap docId =
            .ok (decide (0 ≤ docId ∧ docId.toNatClampNeg ∈ x.1))))
        (World.run before).builders (Sets.run before).builders := by
  refine ⟨?_, (denotes_run before after).imp fun _ _ hb => hb.reads, ?_⟩
  · have hkeeps := (@keeps_foldl (World.run before) (Sets.run before) after).1
    unfold World.run at *
    rwa [List.foldl_append]
  · refine (agrees_run before).builders.imp fun b x ⟨hbuilt, hbuilds⟩ => ⟨hbuilt, ?_⟩
    intro hopen docId
    have hb := hbuilds (hbuilt.trans hopen)
    rw [get_eq_ok (hbuilt.trans hopen)]
    refine congrArg Except.ok (Bool.eq_iff_iff.mpr ?_)
    rw [hb.read_iff, decide_eq_true_iff]

/-! ### The set of all documents -/

/-- A builder that sets the first `n` documents. -/
def fill (n : ℕ) : List Op :=
  [.empty, .toBuilder 0] ++ (List.range n).map (fun d => .set 0 (Int32.ofNat d)) ++ [.build 0]

theorem sets_fill {n : ℕ} (hn : n ≤ 2 ^ 31) :
    Sets.run (fill n) = ⟨[∅, Finset.range n], [(Finset.range n, true)]⟩ := by
  have hset : ((List.range n).map fun d => Op.set 0 (Int32.ofNat d)).foldl Sets.step
      ⟨[∅], [(∅, false)]⟩ = ⟨[∅], [(Finset.range n, false)]⟩ := by
    induction n with
    | zero => rfl
    | succ n ih =>
      have hlt : n < 2 ^ 31 := hn
      have hneg : ¬Int32.ofNat n < 0 := by
        rw [Int32.not_lt, Int32.le_iff_toInt_le, Int32.toInt_ofNat_of_lt hlt]
        exact Int.natCast_nonneg n
      rw [List.range_succ, List.map_append, List.foldl_append, ih hlt.le, List.map_singleton,
        List.foldl_cons, List.foldl_nil]
      simp only [Sets.step, Sets.onBuilder, List.getElem?_cons_zero, Option.elim_some,
        if_neg hneg, Int32.toNatClampNeg_ofNat_of_lt hlt, ← Finset.range_add_one]
      rfl
  unfold Sets.run fill
  rw [List.foldl_append, List.foldl_append]
  show [Op.build 0].foldl Sets.step (List.foldl Sets.step ⟨[∅], [(∅, false)]⟩ _) = _
  rw [hset]
  rfl

/-- The bitmap of all documents has no exact count. -/
theorem run_reads_fill :
    ¬List.Forall₂ (fun b s => b.cardinality.toInt = (s.card : ℤ)) (World.run (fill (2 ^ 31))).bitmaps
      (Sets.run (fill (2 ^ 31))).bitmaps := by
  intro hexact
  have hdenotes := (agrees_run (fill (2 ^ 31))).bitmaps
  rw [sets_fill le_rfl] at hexact hdenotes
  obtain ⟨first, rest, -, hrest, hbitmaps⟩ := List.forall₂_cons_right_iff.mp hdenotes
  obtain ⟨all, last, hall, -, rfl⟩ := List.forall₂_cons_right_iff.mp hrest
  rw [hbitmaps] at hexact
  have hcount := (List.forall₂_cons.mp (List.forall₂_cons.mp hexact).2).1
  rw [hall.toInt_cardinality, if_pos rfl, Finset.card_range] at hcount
  omega

end GeneralSearch.Bitmap
