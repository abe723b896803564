import GeneralSearch.Bitmap.PersistentBlockTree
import Mathlib.Data.Finset.Sort
import Mathlib.Data.List.AList

/-! `ImmutableBitmap` and `ImmutableBitmapBuilder` over a heap of `BitSet` objects.  A bitmap reaches
its bits through the addresses in its blocks, a builder through those and the addresses of its dirty
blocks, and `build` hands the dirty ones on without a copy.  A document is an `int`. -/

namespace GeneralSearch.Bitmap

def BLOCK_SIZE : ℕ := 1024

inductive Thrown where
  | illegalArgument (message : String)
  | illegalState (message : String)
  | nullPointer
  deriving DecidableEq, Repr

/-- The contents of the `BitSet` objects, by address, and the address of the next object. -/
structure Heap where
  bits : ℕ → Finset ℕ
  next : ℕ

def Heap.empty : Heap := ⟨fun _ => ∅, 0⟩

/-- `new BitSet()` with some contents. -/
def Heap.alloc (h : Heap) (contents : Finset ℕ) : ℕ × Heap :=
  (h.next, ⟨Function.update h.bits h.next contents, h.next + 1⟩)

def Heap.write (h : Heap) (address : ℕ) (contents : Finset ℕ) : Heap :=
  { h with bits := Function.update h.bits address contents }

@[simp] theorem Heap.bits_write (h : Heap) (address : ℕ) (contents : Finset ℕ) :
    (h.write address contents).bits address = contents := Function.update_self ..

@[simp] theorem Heap.bits_alloc (h : Heap) (contents : Finset ℕ) :
    (h.alloc contents).2.bits (h.alloc contents).1 = contents := Function.update_self ..

theorem Heap.bits_alloc_of_lt {h : Heap} {contents : Finset ℕ} {r : ℕ} (hr : r < h.next) :
    (h.alloc contents).2.bits r = h.bits r := Function.update_of_ne hr.ne _ _

theorem Heap.bits_write_of_ne {h : Heap} {contents : Finset ℕ} {r address : ℕ} (hr : r ≠ address) :
    (h.write address contents).bits r = h.bits r := Function.update_of_ne hr _ _

/-- A block, which never changes its `BitSet`. -/
structure BitBlock where
  bits : ℕ
  deriving DecidableEq

namespace BitBlock

def get (h : Heap) (block : BitBlock) (offset : ℕ) : Bool := offset ∈ h.bits block.bits

def copyBits (h : Heap) (block : BitBlock) : ℕ × Heap := h.alloc (h.bits block.bits)

/-- A copy of the bits of a block, or of none for a null block. -/
def copyOrNew (h : Heap) : Option BitBlock → ℕ × Heap
  | none => h.alloc ∅
  | some block => block.copyBits h

/-- The visits of `forEachSetBit`. -/
def forEachSetBit (h : Heap) (block : BitBlock) (baseDocId : ℕ) : List Int32 :=
  ((h.bits block.bits).sort (· ≤ ·)).map fun offset => Int32.ofNat (baseDocId + offset)

end BitBlock

/-- The address is that of the object itself. -/
structure ImmutableBitmap where
  address : ℕ
  blocks : PersistentBlockTree BitBlock
  blockCount : ℕ
  cardinality : Int32

/-- `new ImmutableBitmap(blocks, blockCount, cardinality)`. -/
def Heap.newBitmap (h : Heap) (blocks : PersistentBlockTree BitBlock) (blockCount : ℕ)
    (cardinality : Int32) : ImmutableBitmap × Heap :=
  (⟨h.next, blocks, blockCount, cardinality⟩, { h with next := h.next + 1 })

/-- `docId / BLOCK_SIZE`, of a document that is not negative. -/
def blockIndex (docId : Int32) : ℕ := docId.toNatClampNeg / BLOCK_SIZE

/-- `docId % BLOCK_SIZE`, of a document that is not negative. -/
def offset (docId : Int32) : ℕ := docId.toNatClampNeg % BLOCK_SIZE

def negative : Thrown := .illegalArgument "docId must not be negative"

structure ImmutableBitmapBuilder where
  base : ImmutableBitmap
  dirtyBlocks : AList fun _ : ℕ => ℕ
  blockCount : ℕ
  cardinality : Int32
  built : Bool

namespace ImmutableBitmap

def empty (h : Heap) : ImmutableBitmap × Heap := h.newBitmap .empty 0 0

def block (b : ImmutableBitmap) (blockIndex : ℕ) : Option BitBlock :=
  if blockIndex ≥ b.blockCount then none else b.blocks.get blockIndex

def get (h : Heap) (b : ImmutableBitmap) (docId : Int32) : Bool :=
  if docId < 0 then false
  else
    match b.block (blockIndex docId) with
    | none => false
    | some block => block.get h (offset docId)

def isEmpty (b : ImmutableBitmap) : Bool := b.cardinality = 0

/-- The visits of `forEachSetBit`.  No consumer writes what is visited. -/
def forEachSetBit (h : Heap) (b : ImmutableBitmap) : List Int32 :=
  b.blocks.forEachPresent.flatMap fun (index, block) => block.forEachSetBit h (index * BLOCK_SIZE)

def withSet (h : Heap) (b : ImmutableBitmap) (docId : Int32) :
    Except Thrown (ImmutableBitmap × Heap) := do
  if docId < 0 then throw negative
  if b.get h docId then return (b, h)
  let (bits, h) := BitBlock.copyOrNew h (b.block (blockIndex docId))
  let h := h.write bits (insert (offset docId) (h.bits bits))
  return h.newBitmap (b.blocks.withValue (blockIndex docId) (some ⟨bits⟩))
    (max b.blockCount (blockIndex docId + 1)) (b.cardinality + 1)

def withClear (h : Heap) (b : ImmutableBitmap) (docId : Int32) :
    Except Thrown (ImmutableBitmap × Heap) := do
  if docId < 0 then throw negative
  if !b.get h docId then return (b, h)
  let some block := b.block (blockIndex docId) | throw .nullPointer
  let (bits, h) := block.copyBits h
  let h := h.write bits ((h.bits bits).erase (offset docId))
  return h.newBitmap
    (b.blocks.withValue (blockIndex docId) (if h.bits bits = ∅ then none else some ⟨bits⟩))
    b.blockCount (b.cardinality - 1)

end ImmutableBitmap

namespace ImmutableBitmapBuilder

/-- `new ImmutableBitmapBuilder(base)`. -/
def new (base : ImmutableBitmap) : ImmutableBitmapBuilder :=
  ⟨base, ∅, base.blockCount, base.cardinality, false⟩

def ensureOpen (b : ImmutableBitmapBuilder) : Except Thrown Unit :=
  if b.built then throw (.illegalState "builder has already been built") else pure ()

def requireDocId (b : ImmutableBitmapBuilder) (docId : Int32) : Except Thrown Unit := do
  b.ensureOpen
  if docId < 0 then throw negative

/-- The `get` of an open builder. -/
def read (h : Heap) (b : ImmutableBitmapBuilder) (docId : Int32) : Bool :=
  if docId < 0 then false
  else
    match b.dirtyBlocks.lookup (blockIndex docId) with
    | none => b.base.get h docId
    | some dirty => offset docId ∈ h.bits dirty

def get (h : Heap) (b : ImmutableBitmapBuilder) (docId : Int32) : Except Thrown Bool := do
  b.ensureOpen
  return b.read h docId

/-- `mutableBlock`, whose own `ensureOpen` every caller has met. -/
def mutableBlock (h : Heap) (b : ImmutableBitmapBuilder) (blockIndex : ℕ) :
    ℕ × ImmutableBitmapBuilder × Heap :=
  match b.dirtyBlocks.lookup blockIndex with
  | some dirty => (dirty, b, h)
  | none =>
    let (created, h) := BitBlock.copyOrNew h (b.base.block blockIndex)
    (created, { b with dirtyBlocks := b.dirtyBlocks.insert blockIndex created }, h)

def set (h : Heap) (b : ImmutableBitmapBuilder) (docId : Int32) :
    Except Thrown (ImmutableBitmapBuilder × Heap) := do
  b.requireDocId docId
  if ← b.get h docId then return (b, h)
  let (bits, b, h) := b.mutableBlock h (blockIndex docId)
  let h := h.write bits (insert (offset docId) (h.bits bits))
  return ({ b with
    cardinality := b.cardinality + 1
    blockCount := max b.blockCount (blockIndex docId + 1) }, h)

def clear (h : Heap) (b : ImmutableBitmapBuilder) (docId : Int32) :
    Except Thrown (ImmutableBitmapBuilder × Heap) := do
  b.requireDocId docId
  if !(← b.get h docId) then return (b, h)
  let (bits, b, h) := b.mutableBlock h (blockIndex docId)
  let h := h.write bits ((h.bits bits).erase (offset docId))
  return ({ b with cardinality := b.cardinality - 1 }, h)

/-- The consumer of `or`, for one block of the other bitmap. -/
def orBlock (state : ImmutableBitmapBuilder × Heap) (entry : ℕ × BitBlock) :
    ImmutableBitmapBuilder × Heap :=
  let (b, h) := state
  let (blockIndex, block) := entry
  let (bits, b, h) := b.mutableBlock h blockIndex
  let previousCardinality := Int32.ofNat (h.bits bits).card
  let h := h.write bits (h.bits bits ∪ h.bits block.bits)
  ({ b with
    cardinality := b.cardinality + (Int32.ofNat (h.bits bits).card - previousCardinality)
    blockCount := max b.blockCount (blockIndex + 1) }, h)

def or (h : Heap) (b : ImmutableBitmapBuilder) (other : ImmutableBitmap) :
    Except Thrown (ImmutableBitmapBuilder × Heap) := do
  b.ensureOpen
  if other.isEmpty || (other.address = b.base.address && b.dirtyBlocks.entries.isEmpty) then
    return (b, h)
  return other.blocks.forEachPresent.foldl orBlock (b, h)

/-- Whether the round of `build` for a dirty block skips it. -/
def unchanged (h : Heap) (b : ImmutableBitmapBuilder) (blockIndex bits : ℕ) : Bool :=
  match b.base.block blockIndex with
  | none => h.bits bits = ∅
  | some existing => h.bits existing.bits = h.bits bits

/-- The loop of `build`: the tree so far, and whether anything changed. -/
def buildBlock (h : Heap) (b : ImmutableBitmapBuilder)
    (state : PersistentBlockTree BitBlock × Bool) (entry : Σ _ : ℕ, ℕ) :
    PersistentBlockTree BitBlock × Bool :=
  let (updated, changed) := state
  let ⟨blockIndex, bits⟩ := entry
  if b.unchanged h blockIndex bits then (updated, changed)
  else (updated.withValue blockIndex (if h.bits bits = ∅ then none else some ⟨bits⟩), true)

def build (h : Heap) (b : ImmutableBitmapBuilder) :
    Except Thrown (ImmutableBitmap × ImmutableBitmapBuilder × Heap) := do
  b.ensureOpen
  let closed := { b with built := true }
  if b.dirtyBlocks.entries.isEmpty then return (b.base, closed, h)
  let (updated, changed) := b.dirtyBlocks.entries.foldl (b.buildBlock h) (b.base.blocks, false)
  if !changed then return (b.base, closed, h)
  let (bitmap, h) := h.newBitmap updated b.blockCount b.cardinality
  return (bitmap, closed, h)

end ImmutableBitmapBuilder

namespace ImmutableBitmap

open ImmutableBitmapBuilder

/-- The consumer of `and`. -/
def andDocument (target : ImmutableBitmap) (state : ImmutableBitmapBuilder × Heap)
    (docId : Int32) : Except Thrown (ImmutableBitmapBuilder × Heap) :=
  if target.get state.2 docId then state.1.set state.2 docId else return state

def and (h : Heap) (b other : ImmutableBitmap) : Except Thrown (ImmutableBitmap × Heap) := do
  let (base, h) := empty h
  let (source, target) := if b.cardinality ≤ other.cardinality then (b, other) else (other, b)
  let (result, h) ← (source.forEachSetBit h).foldlM target.andDocument (new base, h)
  let (bitmap, _, h) ← result.build h
  return (bitmap, h)

def or (h : Heap) (b other : ImmutableBitmap) : Except Thrown (ImmutableBitmap × Heap) := do
  if other.isEmpty then return (b, h)
  let (result, h) ← (new b).or h other
  let (bitmap, _, h) ← result.build h
  return (bitmap, h)

def andNot (h : Heap) (b other : ImmutableBitmap) : Except Thrown (ImmutableBitmap × Heap) := do
  if b.isEmpty || other.isEmpty then return (b, h)
  let (result, h) ← (other.forEachSetBit h).foldlM (fun state docId => state.1.clear state.2 docId)
    (new b, h)
  let (bitmap, _, h) ← result.build h
  return (bitmap, h)

end ImmutableBitmap

end GeneralSearch.Bitmap
