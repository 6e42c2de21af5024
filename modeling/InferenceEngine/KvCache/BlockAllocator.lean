import InferenceEngine.Basic
import Mathlib.Logic.Function.Basic

/-!
# The block allocator

Physical blocks `0..num_blocks - 1` with reference counts. The free list is a stack; its top, the back
of the source's vector, is the head of the list.
-/

namespace InferenceEngine

/-- `BlockAllocator`. -/
structure BlockAllocator where
  freeList : List Nat
  refCount : Nat → Nat

namespace BlockAllocator

/-- The constructor: all blocks free, block `0` on top. -/
def create (numBlocks : Nat) : BlockAllocator := ⟨List.range numBlocks, fun _ => 0⟩

def numFree (a : BlockAllocator) : Nat := a.freeList.length

/-- `allocate`: take the block on top. -/
def allocate (a : BlockAllocator) : Except Error (Nat × BlockAllocator) :=
  match a.freeList with
  | [] => .error (.runtimeError "BlockAllocator: out of blocks")
  | b :: rest => .ok (b, ⟨rest, Function.update a.refCount b 1⟩)

/-- `incref`: one more reference to a live block. -/
def incref (a : BlockAllocator) (block : Nat) : Except Error BlockAllocator :=
  if a.refCount block = 0 then .error (.runtimeError "BlockAllocator: incref on a free block")
  else .ok ⟨a.freeList, Function.update a.refCount block (a.refCount block + 1)⟩

/-- `free`: drop one reference; at zero the block goes back on the free list. -/
def free (a : BlockAllocator) (block : Nat) : Except Error BlockAllocator :=
  if a.refCount block = 0 then .error (.runtimeError "BlockAllocator: double free")
  else
    let rc := a.refCount block - 1
    .ok ⟨if rc = 0 then block :: a.freeList else a.freeList, Function.update a.refCount block rc⟩

def errors : List Error :=
  [.runtimeError "BlockAllocator: out of blocks", .runtimeError "BlockAllocator: incref on a free block",
    .runtimeError "BlockAllocator: double free"]

end BlockAllocator

end InferenceEngine
