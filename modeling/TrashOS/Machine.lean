import TrashOS.Lib.Program
import TrashOS.Lib.Word
import Mathlib.Logic.Function.Basic

/-!
# The machine the allocator runs on

The state of the kernel as `alloc.c` sees it: a memory of 32-bit words indexed
by virtual address, the heap context the call is about, the page layer, and a
log of what the code did.

* **Memory.**  Words are indexed by byte address.  Every access of the allocator
  is to a word at a multiple of four, so a word memory loses nothing.  Addresses
  and words are natural numbers; arithmetic on them is `Word32`.
* **The page layer** is a type parameter `π`.  For a heap whose page supplier
  works elsewhere it is opaque; for the kernel heap it is instantiated by the
  page tables of `page.c` (`TrashOS.Page`), whose supplier calls back into the
  allocator.
* **The log** records every word the allocator loads or stores, together with
  whether the page was present at that moment, and the page operations.  No code
  reads it.
-/

namespace TrashOS

/-- Why kernel code stops without returning. -/
inductive Stop where
  /-- `printk(message, value); die();` -/
  | die (message : String) (value : ℕ)
  /-- An access through a page table pointer that leads to no table. -/
  | noTable (vma : ℕ)
  /-- A loop that never ends. -/
  | fuel
  deriving DecidableEq, Repr

/-! ## Constants and alignment (`page.h`, `alloc.h`, `mem.h`) -/

/-- `PAGE_SIZE` -/
def pageSize : ℕ := 4096

/-- `PAGE_PUBLIC` -/
def pagePublic : ℕ := 4

/-- `PAGE_WRITE` -/
def pageWrite : ℕ := 2

/-- `PAGE_PRESENT` -/
def pagePresent : ℕ := 1

/-- `KERNEL_START_VMA` -/
def kernelStartVma : ℕ := 0xE0000000

/-- `KM_MIN_ALLOC_SIZE`, the size of `alloc_node_t` -/
def kmMinAllocSize : ℕ := 8

/-- `KM_CHUNK_FREE` -/
def kmChunkFree : ℕ := 1

/-- `sizeof(alloc_chunk_desc_t)` -/
def chunkDescSize : ℕ := 8

/-- `align`: round `addr` up to a multiple of `byte`. -/
def align (addr byte : ℕ) : ℕ :=
  Word32.add (addr &&& Word32.not (Word32.sub byte 1))
    (byte * if addr &&& Word32.sub byte 1 ≠ 0 then 1 else 0)

/-! ## State -/

/-- `alloc_ctxt_t` -/
structure AllocCtxt where
  /-- Pointer to the free list -/
  freeList : ℕ
  /-- Pointer to the start of the context heap -/
  start : ℕ
  /-- Pointer to the end of the context heap (`end`) -/
  heapEnd : ℕ
  deriving DecidableEq, Repr

/-- The operations of the page layer that the allocator calls directly. -/
class PageLayer (π : Type) where
  /-- `page_is_present` -/
  isPresent : ℕ → π → Except Stop Bool
  /-- `page_set_entry` -/
  setEntry : ℕ → ℕ → π → Except Stop π

/-- Whether an access to `vma` finds a present page. -/
def PageLayer.mapped {π : Type} [PageLayer π] (pages : π) (vma : ℕ) : Bool :=
  match PageLayer.isPresent vma pages with
  | .ok present => present
  | .error _ => false

/-- What the log records. -/
inductive Event (π : Type) where
  /-- The word at `addr` was read; `mapped` says whether its page was present. -/
  | load (addr : ℕ) (mapped : Bool)
  /-- The word at `addr` was written. -/
  | store (addr : ℕ) (mapped : Bool)
  /-- `alloc` called `page_set_entry(vma, entry)`. -/
  | setEntry (vma entry : ℕ)
  /-- `free` called `page_free(vma)`. -/
  | pageFree (vma : ℕ)
  /-- `page_new` returned `pma`; `pages` is the page layer it left. -/
  | pageNew (pma : ℕ) (pages : π)
  /-- `page_free` put `pma` on the page free list. -/
  | pageRelease (pma : ℕ)
  /-- `lvt_get_page_pma` returned `pma` without calling `page_new`. -/
  | devicePage (pma : ℕ)

/-- The machine state. -/
structure Sys (π : Type) where
  mem : ℕ → ℕ
  ctxt : AllocCtxt
  pages : π
  log : List (Event π)

/-- Kernel code over the machine state. -/
abbrev KM (π : Type) (α : Type) : Type := Prog (Sys π) Stop α

variable {π : Type} [PageLayer π]

/-! ## Memory accesses -/

/-- The state after a load: only the log changes. -/
def Sys.loaded (s : Sys π) (a : ℕ) : Sys π :=
  { s with log := .load a (PageLayer.mapped s.pages a) :: s.log }

/-- The state after a store. -/
def Sys.stored (s : Sys π) (a v : ℕ) : Sys π :=
  { s with
    mem := Function.update s.mem a v
    log := .store a (PageLayer.mapped s.pages a) :: s.log }

/-- Read the word at `a`. -/
def load (a : ℕ) : KM π ℕ := fun s => .ok (s.mem a, s.loaded a)

/-- Write the word at `a`. -/
def store (a v : ℕ) : KM π Unit := fun s => .ok ((), s.stored a v)

/-- `ctxt->free_list` -/
def getFreeList : KM π ℕ := Prog.read fun s => s.ctxt.freeList

/-- `ctxt->free_list = node` -/
def setFreeList (node : ℕ) : KM π Unit :=
  Prog.update fun s => { s with ctxt := { s.ctxt with freeList := node } }

/-- `ctxt->end` -/
def getEnd : KM π ℕ := Prog.read fun s => s.ctxt.heapEnd

/-- `ctxt->end = vma` -/
def setEnd (vma : ℕ) : KM π Unit :=
  Prog.update fun s => { s with ctxt := { s.ctxt with heapEnd := vma } }

/-- Append to the log. -/
def record (e : Event π) : KM π Unit := Prog.update fun s => { s with log := e :: s.log }

/-- `page_is_present(vma)` -/
def pageIsPresent (vma : ℕ) : KM π Bool := fun s =>
  match PageLayer.isPresent vma s.pages with
  | .ok present => .ok (present, s)
  | .error e => .error e

/-- `page_set_entry(vma, entry)` -/
def pageSetEntry (vma entry : ℕ) : KM π Unit := fun s =>
  match PageLayer.setEntry vma entry s.pages with
  | .ok pages => .ok ((), { s with pages := pages, log := .setEntry vma entry :: s.log })
  | .error e => .error e

/-! ## Fields of the states -/

section Fields

variable (s : Sys π) (a v : ℕ)

@[simp] theorem loaded_mem : (s.loaded a).mem = s.mem := rfl
@[simp] theorem loaded_ctxt : (s.loaded a).ctxt = s.ctxt := rfl
@[simp] theorem loaded_pages : (s.loaded a).pages = s.pages := rfl
@[simp] theorem stored_mem : (s.stored a v).mem = Function.update s.mem a v := rfl
@[simp] theorem stored_ctxt : (s.stored a v).ctxt = s.ctxt := rfl
@[simp] theorem stored_pages : (s.stored a v).pages = s.pages := rfl

end Fields

/-! ## Alignment -/

/-- `align` with a power of two rounds up, as long as the result fits. -/
theorem align_eq_roundUp {addr k : ℕ} (hk : k < 32)
    (fits : Word32.roundUp k addr < 2 ^ 32) (word : addr < 2 ^ 32) :
    align addr (2 ^ k) = Word32.roundUp k addr := by
  have pow_pos : 0 < 2 ^ k := Nat.two_pow_pos k
  have pow_lt : 2 ^ k < 2 ^ 32 := Nat.pow_lt_pow_right (by norm_num) hk
  have mask : Word32.sub (2 ^ k) 1 = 2 ^ k - 1 := Word32.sub_eq (by omega) pow_lt
  unfold align
  rw [mask, Word32.and_not_low hk.le word, Word32.and_low]
  by_cases exact : addr % 2 ^ k = 0
  · have split := Nat.div_add_mod' addr (2 ^ k)
    rw [if_neg (by simpa using exact), Nat.mul_zero, Word32.roundUp_of_mod_eq_zero exact,
      Word32.add_eq (by omega)]
    omega
  · rw [Word32.roundUp_of_mod_ne_zero exact] at fits ⊢
    rw [if_pos exact, Nat.mul_one]
    exact Word32.add_eq fits

end TrashOS
