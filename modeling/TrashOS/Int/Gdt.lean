import TrashOS.Lib.Protected
import TrashOS.Proc.Handler
import Mathlib.Tactic.IntervalCases

/-!
# `gdt.c`: the global descriptor table

`gdt_descriptor` assembles a descriptor with masks and shifts; what comes out is the
layout the processor reads (`gdtDescriptor_eq`), and every word is reached.

`gdt_init` fills seven entries, of which two describe the same task state segment, loads
the registers of the tables, and then every segment register.  The limit it puts into the
GDT register is the size of the table, one more than the offset of the last byte; no
selector gains by it, as a whole descriptor would have to fit.

## Main results

* `gdtDescriptor_exact` — packing and reading are inverse, for every field and every word.
* `gdtTable_loadData`, `gdtTable_loadStack`, `gdtTable_returnCode`, `gdtTable_farTarget` —
  what each ring can do with each selector, in the terms of the library of segments.
* `gdtInit_exact` — the same of the state `gdt_init` leaves, whatever was loaded before.
-/

namespace TrashOS

open X86 BitFields

/-! ## `gdt_descriptor` -/

/-- `gdt_descriptor`, with its arguments of 32, 32 and 16 bits -/
def gdtDescriptor (base limit flags : ℕ) : ℕ :=
  let descriptor := limit &&& 0x000f0000
  let descriptor := descriptor ||| (flags <<< 8 &&& 0x00f0ff00)
  let descriptor := descriptor ||| (base >>> 16 &&& 0x000000ff)
  let descriptor := descriptor ||| (base &&& 0xff000000)
  let descriptor := descriptor <<< 32 % 2 ^ 64
  let descriptor := descriptor ||| (limit &&& 0x0000ffff)
  descriptor ||| base <<< 16 % 2 ^ 32

/-- What the arguments of `gdt_descriptor` ask for. -/
def requestedDescriptor (base limit flags : ℕ) : Descriptor where
  limit := limit % 2 ^ 20
  base := base
  type := flags % 16
  segment := flags / 16 % 2
  dpl := flags / 32 % 4
  present := flags / 128 % 2
  available := flags / 2 ^ 12 % 2
  long := flags / 2 ^ 13 % 2
  big := flags / 2 ^ 14 % 2
  granular := flags / 2 ^ 15 % 2

/-- The flags that ask for a descriptor. -/
def descriptorFlags (d : Descriptor) : ℕ :=
  d.type + 16 * d.segment + 32 * d.dpl + 128 * d.present + 2 ^ 12 * d.available +
    2 ^ 13 * d.long + 2 ^ 14 * d.big + 2 ^ 15 * d.granular

section Descriptor

variable {base limit flags w : ℕ} {d : Descriptor}

/-- The two masks of the flags. -/
theorem flags_mask (word : flags < 2 ^ 16) :
    flags <<< 8 &&& 0x00f0ff00 = flags / 2 ^ 12 * 2 ^ 20 + flags % 2 ^ 8 * 2 ^ 8 := by
  have masks : (0x00f0ff00 : ℕ) = (2 ^ 4 - 1) * 2 ^ 20 ||| (2 ^ 8 - 1) * 2 ^ 8 := by decide
  rw [masks, Nat.and_or_distrib_left, and_mask, and_mask, Nat.shiftLeft_eq,
    or_eq_add _ (by have := field_lt 8 8 (flags * 2 ^ 8); omega)]
  unfold field
  omega

/-- The high word. -/
theorem gdtDescriptor_high (word : flags < 2 ^ 16) (address : base < 2 ^ 32) :
    limit &&& 0x000f0000 ||| (flags <<< 8 &&& 0x00f0ff00) ||| (base >>> 16 &&& 0x000000ff) |||
        (base &&& 0xff000000) =
      base / 2 ^ 24 * 2 ^ 24 + (flags / 2 ^ 12 * 2 ^ 20 + (limit / 2 ^ 16 % 2 ^ 4 * 2 ^ 16 +
        (flags % 2 ^ 8 * 2 ^ 8 + base / 2 ^ 16 % 2 ^ 8))) := by
  have limitBits : limit &&& 0x000f0000 = limit / 2 ^ 16 % 2 ^ 4 * 2 ^ 16 := and_mask limit 16 4
  have middle : base >>> 16 &&& 0x000000ff = base / 2 ^ 16 % 2 ^ 8 := by
    rw [Nat.shiftRight_eq_div_pow]
    exact Word32.and_low _ 8
  have top : base &&& 0xff000000 = base / 2 ^ 24 * 2 ^ 24 := by
    rw [show (0xff000000 : ℕ) = (2 ^ 8 - 1) * 2 ^ 24 by decide, and_mask, field,
      Nat.mod_eq_of_lt (by omega)]
  have access : flags / 2 ^ 12 * 2 ^ 20 + flags % 2 ^ 8 * 2 ^ 8 =
      flags / 2 ^ 12 * 2 ^ 20 ||| flags % 2 ^ 8 * 2 ^ 8 := (or_eq_add _ (by omega)).symm
  rw [limitBits, flags_mask word, middle, top, access]
  -- From the lowest bits up.
  rw [← or_eq_add _ (show base / 2 ^ 16 % 2 ^ 8 < 2 ^ 8 by omega),
    ← or_eq_add (limit / 2 ^ 16 % 2 ^ 4) (Nat.or_lt_two_pow (by omega) (by omega)),
    ← or_eq_add (flags / 2 ^ 12)
      (Nat.or_lt_two_pow (by omega) (Nat.or_lt_two_pow (by omega) (by omega))),
    ← or_eq_add (base / 2 ^ 24) (Nat.or_lt_two_pow (by omega)
      (Nat.or_lt_two_pow (by omega) (Nat.or_lt_two_pow (by omega) (by omega))))]
  ac_rfl

/-- **`gdt_descriptor` makes the descriptor the processor reads.** -/
theorem gdtDescriptor_eq (address : base < 2 ^ 32) (word : flags < 2 ^ 16) :
    gdtDescriptor base limit flags = (requestedDescriptor base limit flags).encode := by
  have low : limit &&& 0x0000ffff = limit % 2 ^ 16 := Word32.and_low _ 16
  have shifted : base <<< 16 % 2 ^ 32 = base % 2 ^ 16 * 2 ^ 16 := by
    rw [Nat.shiftLeft_eq]
    omega
  unfold gdtDescriptor
  dsimp only
  rw [gdtDescriptor_high word address, low, shifted, Nat.shiftLeft_eq, Nat.mod_eq_of_lt (by omega),
    Nat.or_assoc, Nat.or_comm (limit % 2 ^ 16), or_eq_add (base % 2 ^ 16) (by omega),
    or_eq_add _ (by omega)]
  unfold Descriptor.encode Descriptor.layout requestedDescriptor
  simp only [pack]
  have access : flags % 2 ^ 8 = flags % 16 % 2 ^ 4 + 2 ^ 4 * (flags / 16 % 2 % 2 ^ 1 +
      2 ^ 1 * (flags / 32 % 4 % 2 ^ 2 + 2 ^ 2 * (flags / 128 % 2 % 2 ^ 1))) := by omega
  have kind : flags / 2 ^ 12 = flags / 2 ^ 12 % 2 % 2 ^ 1 + 2 ^ 1 * (flags / 2 ^ 13 % 2 % 2 ^ 1 +
      2 ^ 1 * (flags / 2 ^ 14 % 2 % 2 ^ 1 + 2 ^ 1 * (flags / 2 ^ 15 % 2 % 2 ^ 1))) := by omega
  have start : base % 2 ^ 24 = base % 2 ^ 16 + 2 ^ 16 * (base / 2 ^ 16 % 2 ^ 8) := by omega
  have top : base / 2 ^ 24 % 2 ^ 8 = base / 2 ^ 24 := Nat.mod_eq_of_lt (by omega)
  have size : limit % 2 ^ 20 / 2 ^ 16 % 2 ^ 4 = limit / 2 ^ 16 % 2 ^ 4 := by omega
  nth_rewrite 1 [kind]
  rw [access, start, top, size, Nat.mod_mod_of_dvd limit (by decide : 2 ^ 16 ∣ 2 ^ 20)]
  ring

theorem requestedDescriptor_fits (address : base < 2 ^ 32) :
    (requestedDescriptor base limit flags).Fits := by
  constructor <;> dsimp only [requestedDescriptor] <;> omega

/-- **The processor reads what was asked for**, and whatever it can read, some arguments ask for.
The base and the limit are split over the descriptor in pieces; both directions together say that
no bit is lost and none is invented. -/
theorem gdtDescriptor_exact :
    (∀ base limit flags, base < 2 ^ 32 → limit < 2 ^ 32 → flags < 2 ^ 16 →
      gdtDescriptor base limit flags < 2 ^ 64 ∧
        Descriptor.decode (gdtDescriptor base limit flags) =
          requestedDescriptor base limit flags) ∧
      ∀ w < 2 ^ 64, descriptorFlags (.decode w) < 2 ^ 16 ∧
        gdtDescriptor (Descriptor.decode w).base (Descriptor.decode w).limit
          (descriptorFlags (.decode w)) = w := by
  refine ⟨fun base limit flags address _ word => ?_, fun w word => ?_⟩
  · rw [gdtDescriptor_eq address word]
    exact ⟨Descriptor.encode_lt _, Descriptor.decode_encode (requestedDescriptor_fits address)⟩
  · have fits := Descriptor.decode_fits w
    have same : requestedDescriptor (Descriptor.decode w).base (Descriptor.decode w).limit
        (descriptorFlags (.decode w)) = .decode w := by
      generalize Descriptor.decode w = d at fits
      have ⟨_, _, _, _, _, _, _, _, _, _⟩ := fits
      unfold requestedDescriptor descriptorFlags
      ext <;> dsimp only <;> omega
    have flags : descriptorFlags (.decode w) < 2 ^ 16 := by
      generalize Descriptor.decode w = d at fits
      have ⟨_, _, _, _, _, _, _, _, _, _⟩ := fits
      unfold descriptorFlags
      omega
    refine ⟨flags, ?_⟩
    rw [gdtDescriptor_eq fits.base flags, same, Descriptor.encode_decode word]

end Descriptor

/-! ## `gdt_init` -/

/-- `SEG_PRIV` -/
def segPriv (x : ℕ) : ℕ := (x &&& 0x3) <<< 5

/-- `SEG_PRES` -/
def segPres (x : ℕ) : ℕ := x <<< 7

/-- `SEG_AVLS` -/
def segAvls (x : ℕ) : ℕ := x <<< 12

/-- `SEG_LONG` -/
def segLong (x : ℕ) : ℕ := x <<< 13

/-- `SEG_SIZE` -/
def segSize (x : ℕ) : ℕ := x <<< 14

/-- `SEG_GRAN` -/
def segGran (x : ℕ) : ℕ := x <<< 15

/-- `SEG_SYS_TSS` -/
def segSysTss : ℕ := 9

/-- `SEG_DATA_W` -/
def segDataW : ℕ := 18

/-- `SEG_CODE_R` -/
def segCodeR : ℕ := 26

/-- The flags of all segments: present, and counted in pages. -/
def gdtFlags (size priv kind : ℕ) : ℕ :=
  segPres 1 ||| segAvls 0 ||| segLong 0 ||| segSize size ||| segGran 1 ||| segPriv priv ||| kind

/-- `GDT_CODE_PL0` -/
def gdtCodePl0 : ℕ := gdtFlags 1 0 segCodeR

/-- `GDT_DATA_PL0` -/
def gdtDataPl0 : ℕ := gdtFlags 1 0 segDataW

/-- `GDT_TSS_PL0` -/
def gdtTssPl0 : ℕ := gdtFlags 0 0 segSysTss

/-- `GDT_CODE_PL3` -/
def gdtCodePl3 : ℕ := gdtFlags 1 3 segCodeR

/-- `GDT_DATA_PL3` -/
def gdtDataPl3 : ℕ := gdtFlags 1 3 segDataW

/-- `GDT_TSS_PL3` -/
def gdtTssPl3 : ℕ := gdtFlags 0 3 segSysTss

/-- `GDT_SEL_TSS_PL3` -/
def gdtSelTssPl3 : Selector := ⟨0x33, by decide⟩

/-- `GDT_IDX_LIMIT`, the number of entries -/
def gdtIdxLimit : ℕ := 7

/-- `sizeof(TSS)` -/
def sizeofTss : ℕ := 104

/-- The processor, the double words of memory by their addresses, and the stack of ring 0
in the `TSS`. -/
structure Processor where
  cpu : Cpu
  memory : ℕ → ℕ
  gdt : Table
  idt : Table
  tr : Selector
  ss0 : Selector
  esp0 : ℕ

/-- `GDT[idx] = word` -/
def storeGdt (gdt idx word : ℕ) : Prog Processor Fault Unit :=
  Prog.update fun p => { p with memory := Function.update p.memory (gdt + 8 * idx) word }

/-- `load_gdt`: the low 16 bits are the limit, the 32 bits behind them the address. -/
def loadGdt (sel : ℕ) : Prog Processor Fault Unit :=
  Prog.update fun p => { p with gdt :=
    { entry := fun i => p.memory (field 16 32 sel + 8 * i), limit := field 0 16 sel } }

/-- `set_cs`, a far return in the ring of the kernel -/
def setCs (sel : Selector) : Prog Processor Fault Unit := fun p =>
  match p.gdt.returnCode (ring p.cpu.cs) sel with
  | .ok _ => .ok ((), { p with cpu := { p.cpu with cs := sel } })
  | .error fault => .error fault

/-- `set_ds`, `set_es`, `set_fs` and `set_gs` -/
def setSeg (r : Seg) (sel : Selector) : Prog Processor Fault Unit := fun p =>
  match p.gdt.loadData (ring p.cpu.cs) sel with
  | .ok _ => .ok ((), { p with cpu := p.cpu.setSeg r sel })
  | .error fault => .error fault

/-- `set_ss` -/
def setSs (sel : Selector) : Prog Processor Fault Unit := fun p =>
  match p.gdt.loadStack (ring p.cpu.cs) sel with
  | .ok _ => .ok ((), { p with cpu := { p.cpu with ss := sel } })
  | .error fault => .error fault

/-- `set_tr` -/
def setTr (sel : Selector) : Prog Processor Fault Unit := fun p =>
  match p.gdt.loadTask sel with
  | .ok gdt => .ok ((), { p with gdt := gdt, tr := sel })
  | .error fault => .error fault

/-- `gdt_init`, with `GDT` and `TSS` at the given addresses -/
def gdtInit (gdt tss : ℕ) : Prog Processor Fault Unit := do
  storeGdt gdt 0 (gdtDescriptor 0 0 0)
  storeGdt gdt 1 (gdtDescriptor 0 0xfffff gdtCodePl0)
  storeGdt gdt 2 (gdtDescriptor 0 0xfffff gdtDataPl0)
  storeGdt gdt 3 (gdtDescriptor tss sizeofTss gdtTssPl0)
  storeGdt gdt 4 (gdtDescriptor 0 0xfffff gdtCodePl3)
  storeGdt gdt 5 (gdtDescriptor 0 0xfffff gdtDataPl3)
  storeGdt gdt 6 (gdtDescriptor tss sizeofTss gdtTssPl3)
  Prog.update fun p => { p with ss0 := gdtSelDataPl0, esp0 := 0 }
  loadGdt (gdt <<< 16 ||| 8 * gdtIdxLimit)
  setCs gdtSelCodePl0
  setSeg .ds gdtSelDataPl0
  setSeg .es gdtSelDataPl0
  setSeg .fs gdtSelDataPl0
  setSeg .gs gdtSelDataPl0
  setSs gdtSelDataPl0
  setTr gdtSelTssPl3

/-! ## The table -/

/-- A segment over the whole address space. -/
def flatSegment (type dpl : ℕ) : Descriptor where
  limit := 0xfffff
  base := 0
  type := type
  segment := 1
  dpl := dpl
  present := 1
  available := 0
  long := 0
  big := 1
  granular := 1

/-- The task state segment. -/
def taskSegment (tss type dpl : ℕ) : Descriptor where
  limit := sizeofTss
  base := tss
  type := type
  segment := 0
  dpl := dpl
  present := 1
  available := 0
  long := 0
  big := 0
  granular := 1

/-- What `gdt_init` leaves in the table: the task of the last entry is busy. -/
def gdtDescriptors (tss : ℕ) : List Descriptor :=
  [⟨0, 0, 0, 0, 0, 0, 0, 0, 0, 0⟩, flatSegment 10 0, flatSegment 2 0, taskSegment tss 9 0,
    flatSegment 10 3, flatSegment 2 3, taskSegment tss 11 3]

/-- The table, with any memory behind it, and the limit `gdt_init` gives. -/
def gdtTable (tss : ℕ) (memory : ℕ → ℕ) : Table where
  entry i := ((gdtDescriptors tss)[i]?.map Descriptor.encode).getD (memory i)
  limit := 8 * gdtIdxLimit

section Table

variable {tss cpl sel idx : ℕ} {memory : ℕ → ℕ} {d : Descriptor}

theorem flatSegment_fits {type dpl : ℕ} (kind : type < 16) (ring : dpl < 4) :
    (flatSegment type dpl).Fits where
  limit := by
    change 0xfffff < 2 ^ 20
    decide
  base := Nat.two_pow_pos 32
  type := kind
  segment := Nat.one_lt_two
  dpl := ring
  present := Nat.one_lt_two
  available := Nat.zero_lt_two
  long := Nat.zero_lt_two
  big := Nat.one_lt_two
  granular := Nat.one_lt_two

theorem taskSegment_fits {type dpl : ℕ} (address : tss < 2 ^ 32) (kind : type < 16)
    (ring : dpl < 4) : (taskSegment tss type dpl).Fits where
  limit := by
    change 104 < 2 ^ 20
    decide
  base := address
  type := kind
  segment := Nat.zero_lt_two
  dpl := ring
  present := Nat.one_lt_two
  available := Nat.zero_lt_two
  long := Nat.zero_lt_two
  big := Nat.zero_lt_two
  granular := Nat.one_lt_two

theorem gdtDescriptors_fits (address : tss < 2 ^ 32) (found : (gdtDescriptors tss)[idx]? = some d) :
    d.Fits := by
  have member := List.mem_of_getElem? found
  simp only [gdtDescriptors, List.mem_cons, List.not_mem_nil, or_false] at member
  obtain rfl | rfl | rfl | rfl | rfl | rfl | rfl := member
  · constructor <;> decide
  · exact flatSegment_fits (by decide) (by decide)
  · exact flatSegment_fits (by decide) (by decide)
  · exact taskSegment_fits address (by decide) (by decide)
  · exact flatSegment_fits (by decide) (by decide)
  · exact flatSegment_fits (by decide) (by decide)
  · exact taskSegment_fits address (by decide) (by decide)

/-- **What a selector names**: one of the seven entries, and nothing behind them. -/
theorem gdtTable_descriptor (address : tss < 2 ^ 32) :
    (gdtTable tss memory).descriptor sel =
      if sel / 4 % 2 = 0 then (gdtDescriptors tss)[sel / 8]? else none := by
  unfold Table.descriptor
  by_cases global : sel / 4 % 2 = 0
  · rw [if_pos global]
    by_cases inside : sel / 8 < 7
    · have bound : sel / 8 * 8 + 7 ≤ (gdtTable tss memory).limit := by
        change sel / 8 * 8 + 7 ≤ 56
        omega
      obtain ⟨d, found⟩ : ∃ d, (gdtDescriptors tss)[sel / 8]? = some d :=
        ⟨_, List.getElem?_eq_getElem inside⟩
      rw [if_pos ⟨global, bound⟩, found]
      unfold gdtTable
      dsimp only
      rw [found, Option.map_some, Option.getD_some,
        Descriptor.decode_encode (gdtDescriptors_fits address found)]
    · have bound : ¬ sel / 8 * 8 + 7 ≤ (gdtTable tss memory).limit := by
        change ¬ sel / 8 * 8 + 7 ≤ 56
        omega
      rw [if_neg fun both => bound both.2, List.getElem?_eq_none (by
        change 7 ≤ sel / 8
        omega)]
  · rw [if_neg global, if_neg fun both => global both.1]

/-- One of the seven entries. -/
theorem gdtTable_entry (address : tss < 2 ^ 32)
    (found : (gdtTable tss memory).descriptor sel = some d) :
    sel / 4 % 2 = 0 ∧ (sel / 8 = 0 ∧ d.present = 0 ∨ sel / 8 = 1 ∧ d = flatSegment 10 0 ∨
      sel / 8 = 2 ∧ d = flatSegment 2 0 ∨ sel / 8 = 3 ∧ d = taskSegment tss 9 0 ∨
      sel / 8 = 4 ∧ d = flatSegment 10 3 ∨ sel / 8 = 5 ∧ d = flatSegment 2 3 ∨
      sel / 8 = 6 ∧ d = taskSegment tss 11 3) := by
  rw [gdtTable_descriptor address] at found
  split_ifs at found with global
  refine ⟨global, ?_⟩
  have inside : sel / 8 < 7 := (List.getElem?_eq_some_iff.mp found).1
  generalize sel / 8 = idx at found inside
  interval_cases idx <;> obtain rfl := Option.some.inj found <;> simp

/-- The segments over the whole address space. -/
theorem gdtTable_flat (address : tss < 2 ^ 32) (memory : ℕ → ℕ) {i type dpl : ℕ}
    (found : (gdtDescriptors tss)[i]? = some (flatSegment type dpl)) (global : sel / 4 % 2 = 0)
    (entry : sel / 8 = i) :
    (gdtTable tss memory).descriptor sel = some (flatSegment type dpl) := by
  rw [gdtTable_descriptor address, if_pos global, entry, found]

theorem flatSegment_readable {type dpl : ℕ} (kind : type = 10 ∨ type = 2) :
    (flatSegment type dpl).Readable := by
  refine ⟨rfl, ?_⟩
  change type < 8 ∨ type / 2 % 2 = 1
  omega

theorem flatSegment_not_conforming {type dpl : ℕ} (kind : type = 10 ∨ type = 2) :
    ¬ (flatSegment type dpl).Conforming := by
  rintro ⟨-, conforming⟩
  change type / 4 % 2 = 1 at conforming
  omega

/-- **Data segments.**  Ring 0 may load them all; the outer rings those of ring 3. -/
theorem gdtTable_loadData (address : tss < 2 ^ 32) :
    ((gdtTable tss memory).loadData cpl sel).isOk ↔ sel < 4 ∨
      (sel / 4 = 8 ∨ sel / 4 = 10) ∧ cpl ≤ 3 ∨ (sel = 0x08 ∨ sel = 0x10) ∧ cpl = 0 := by
  have loads : ∀ {i type dpl}, (gdtDescriptors tss)[i]? = some (flatSegment type dpl) →
      sel / 4 = 2 * i → type = 10 ∨ type = 2 → sel % 4 ≤ dpl → cpl ≤ dpl →
        ∃ d, (gdtTable tss memory).descriptor sel = some d ∧ d.Readable ∧
          (d.Conforming ∨ sel % 4 ≤ d.dpl ∧ cpl ≤ d.dpl) ∧ d.present ≠ 0 :=
    fun found entry kind rpl level => ⟨_, gdtTable_flat address memory found (by omega) (by omega),
      flatSegment_readable kind, Or.inr ⟨rpl, level⟩, Nat.one_ne_zero⟩
  rw [Table.loadData_isOk]
  refine or_congr_right ⟨?_, ?_⟩
  · rintro ⟨d, found, readable, allowed, present⟩
    obtain ⟨global, ⟨-, absent⟩ | ⟨at1, rfl⟩ | ⟨at2, rfl⟩ | ⟨-, rfl⟩ | ⟨at4, rfl⟩ | ⟨at5, rfl⟩ |
      ⟨-, rfl⟩⟩ := gdtTable_entry address found
    · exact absurd absent present
    · obtain ⟨rpl, level⟩ := allowed.resolve_left (flatSegment_not_conforming (Or.inl rfl))
      change sel % 4 ≤ 0 at rpl
      change cpl ≤ 0 at level
      omega
    · obtain ⟨rpl, level⟩ := allowed.resolve_left (flatSegment_not_conforming (Or.inr rfl))
      change sel % 4 ≤ 0 at rpl
      change cpl ≤ 0 at level
      omega
    · exact absurd readable.1 Nat.zero_ne_one
    · obtain ⟨-, level⟩ := allowed.resolve_left (flatSegment_not_conforming (Or.inl rfl))
      change cpl ≤ 3 at level
      omega
    · obtain ⟨-, level⟩ := allowed.resolve_left (flatSegment_not_conforming (Or.inr rfl))
      change cpl ≤ 3 at level
      omega
    · exact absurd readable.1 Nat.zero_ne_one
  · rintro (⟨entry | entry, level⟩ | ⟨rfl | rfl, rfl⟩)
    · exact loads (i := 4) rfl entry (Or.inl rfl) (by omega) level
    · exact loads (i := 5) rfl entry (Or.inr rfl) (by omega) level
    · exact loads (i := 1) rfl rfl (Or.inl rfl) le_rfl le_rfl
    · exact loads (i := 2) rfl rfl (Or.inr rfl) le_rfl le_rfl

/-- **The stack segment** of ring 0 and that of ring 3. -/
theorem gdtTable_loadStack (address : tss < 2 ^ 32) :
    (gdtTable tss memory).loadStack cpl sel = .ok d ↔
      (cpl = 0 ∧ sel = 0x10 ∨ cpl = 3 ∧ sel = 0x2b) ∧ d = flatSegment 2 cpl := by
  rw [Table.loadStack_eq_ok]
  constructor
  · rintro ⟨-, found, rpl, ⟨segment, kind, -⟩, dpl, present⟩
    obtain ⟨global, ⟨-, absent⟩ | ⟨at1, rfl⟩ | ⟨at2, rfl⟩ | ⟨-, rfl⟩ | ⟨at4, rfl⟩ | ⟨at5, rfl⟩ |
      ⟨-, rfl⟩⟩ := gdtTable_entry address found
    · exact absurd absent present
    · exact absurd kind (by decide)
    · change 0 = cpl at dpl
      subst dpl
      exact ⟨Or.inl ⟨rfl, by omega⟩, rfl⟩
    · exact absurd segment Nat.zero_ne_one
    · exact absurd kind (by decide)
    · change 3 = cpl at dpl
      subst dpl
      exact ⟨Or.inr ⟨rfl, by omega⟩, rfl⟩
    · exact absurd segment Nat.zero_ne_one
  · have writable : ∀ dpl, (flatSegment 2 dpl).Writable := fun dpl => by
      refine ⟨rfl, ?_⟩
      change 2 < 8 ∧ 2 / 2 % 2 = 1
      decide
    rintro ⟨⟨rfl, rfl⟩ | ⟨rfl, rfl⟩, rfl⟩
    · exact ⟨by decide, gdtTable_flat (i := 2) address memory rfl rfl rfl, rfl, writable 0, rfl,
        Nat.one_ne_zero⟩
    · exact ⟨by decide, gdtTable_flat (i := 5) address memory rfl rfl rfl, rfl, writable 3, rfl,
        Nat.one_ne_zero⟩

theorem flatSegment_code (dpl : ℕ) : (flatSegment 10 dpl).Code :=
  ⟨rfl, Nat.le_add_left 8 2⟩

/-- **A return** goes to the code segment of ring 0 or to that of ring 3. -/
theorem gdtTable_returnCode (address : tss < 2 ^ 32) :
    (gdtTable tss memory).returnCode cpl sel = .ok d ↔
      cpl = 0 ∧ sel = 0x08 ∧ d = flatSegment 10 0 ∨
        cpl ≤ 3 ∧ sel = 0x23 ∧ d = flatSegment 10 3 := by
  rw [Table.returnCode_eq_ok]
  constructor
  · rintro ⟨-, found, ⟨segment, kind⟩, outer, ring, present⟩
    obtain ⟨global, ⟨-, absent⟩ | ⟨at1, rfl⟩ | ⟨at2, rfl⟩ | ⟨-, rfl⟩ | ⟨at4, rfl⟩ | ⟨at5, rfl⟩ |
      ⟨-, rfl⟩⟩ := gdtTable_entry address found
    · exact absurd absent present
    · obtain ⟨conforming, -⟩ | ⟨-, same⟩ := ring
      · exact absurd conforming (flatSegment_not_conforming (Or.inl rfl))
      · change 0 = sel % 4 at same
        exact Or.inl ⟨by omega, by omega, rfl⟩
    · exact absurd kind (by decide)
    · exact absurd segment Nat.zero_ne_one
    · obtain ⟨conforming, -⟩ | ⟨-, same⟩ := ring
      · exact absurd conforming (flatSegment_not_conforming (Or.inl rfl))
      · change 3 = sel % 4 at same
        exact Or.inr ⟨by omega, by omega, rfl⟩
    · exact absurd kind (by decide)
    · exact absurd segment Nat.zero_ne_one
  · rintro (⟨rfl, rfl, rfl⟩ | ⟨level, rfl, rfl⟩)
    · exact ⟨by decide, gdtTable_flat (i := 1) address memory rfl rfl rfl, flatSegment_code 0,
        le_rfl, Or.inr ⟨flatSegment_not_conforming (Or.inl rfl), rfl⟩, Nat.one_ne_zero⟩
    · exact ⟨by decide, gdtTable_flat (i := 4) address memory rfl rfl rfl, flatSegment_code 3,
        level, Or.inr ⟨flatSegment_not_conforming (Or.inl rfl), rfl⟩, Nat.one_ne_zero⟩

/-- **No far jump or call leaves ring 3**: the task of ring 3 is busy, and there is no
gate. -/
theorem gdtTable_farTarget (address : tss < 2 ^ 32) {target : Table.Target}
    (goes : (gdtTable tss memory).farTarget 3 sel = .ok target) : target = .code 0x23 := by
  obtain ⟨d, found, present, ⟨code, rfl, ring⟩ | ⟨system, kind, level, -⟩⟩ :=
    Table.of_farTarget goes
  · obtain ⟨global, ⟨-, absent⟩ | ⟨at1, rfl⟩ | ⟨at2, rfl⟩ | ⟨-, rfl⟩ | ⟨at4, rfl⟩ | ⟨at5, rfl⟩ |
      ⟨-, rfl⟩⟩ := gdtTable_entry address found
    · exact absurd absent present
    · obtain conforming | ⟨-, dpl⟩ := ring
      · exact absurd conforming (flatSegment_not_conforming (Or.inl rfl))
      · cases dpl
    · exact absurd code.2 (by decide)
    · exact absurd code.1 Nat.zero_ne_one
    · exact congrArg _ (by omega)
    · exact absurd code.2 (by decide)
    · exact absurd code.1 Nat.zero_ne_one
  · obtain ⟨global, ⟨-, absent⟩ | ⟨at1, rfl⟩ | ⟨at2, rfl⟩ | ⟨-, rfl⟩ | ⟨at4, rfl⟩ | ⟨at5, rfl⟩ |
      ⟨-, rfl⟩⟩ := gdtTable_entry address found
    · exact absurd absent present
    · exact absurd rfl system
    · exact absurd rfl system
    · exact absurd level (by change ¬ 3 ≤ 0; decide)
    · exact absurd rfl system
    · exact absurd rfl system
    · exact absurd kind (by change ¬ 11 ∈ [1, 9, 4, 12, 5]; decide)

/-- **A far jump or call into code** stays in the code segment of its ring. -/
theorem gdtTable_farCode (address : tss < 2 ^ 32) {cs : ℕ}
    (goes : (gdtTable tss memory).farTarget cpl sel = .ok (.code cs)) :
    cpl = 0 ∧ cs = 0x08 ∨ cpl = 3 ∧ cs = 0x23 := by
  obtain ⟨d, found, present, ⟨code, same, ring⟩ | ⟨-, -, -, other⟩⟩ := Table.of_farTarget goes
  · obtain rfl : cs = _ := Table.Target.code.inj same
    obtain ⟨global, ⟨-, absent⟩ | ⟨at1, rfl⟩ | ⟨at2, rfl⟩ | ⟨-, rfl⟩ | ⟨at4, rfl⟩ | ⟨at5, rfl⟩ |
      ⟨-, rfl⟩⟩ := gdtTable_entry address found
    · exact absurd absent present
    · obtain conforming | ⟨-, dpl⟩ := ring
      · exact absurd conforming (flatSegment_not_conforming (Or.inl rfl))
      · change 0 = cpl at dpl
        omega
    · exact absurd code.2 (by decide)
    · exact absurd code.1 Nat.zero_ne_one
    · obtain conforming | ⟨-, dpl⟩ := ring
      · exact absurd conforming (flatSegment_not_conforming (Or.inl rfl))
      · change 3 = cpl at dpl
        omega
    · exact absurd code.2 (by decide)
    · exact absurd code.1 Nat.zero_ne_one
  · exact absurd rfl (other cs)

/-- **Offsets are linear addresses.** -/
theorem flatSegment_linear {type dpl offset size : ℕ} (inside : offset + size ≤ 2 ^ 32)
    (nonempty : 0 < size) : (flatSegment type dpl).linear offset size = some offset := by
  have last : (flatSegment type dpl).lastByte + 1 = 2 ^ 32 := by
    unfold Descriptor.lastByte
    rw [if_pos (show (flatSegment type dpl).granular = 1 from rfl)]
    change 0xfffff * 4096 + 4095 + 1 = 2 ^ 32
    decide
  unfold Descriptor.linear
  rw [last, if_pos inside]
  change some ((0 + offset) % 2 ^ 32) = some offset
  rw [Nat.zero_add, Nat.mod_eq_of_lt (by omega)]

end Table

/-! ## The run of `gdt_init` -/

section Init

variable {gdt tss : ℕ} {p : Processor} {sel : Selector}

/-- The double words of the seven entries. -/
def gdtWords (tss : ℕ) : List ℕ :=
  [gdtDescriptor 0 0 0, gdtDescriptor 0 0xfffff gdtCodePl0, gdtDescriptor 0 0xfffff gdtDataPl0,
    gdtDescriptor tss sizeofTss gdtTssPl0, gdtDescriptor 0 0xfffff gdtCodePl3,
    gdtDescriptor 0 0xfffff gdtDataPl3, gdtDescriptor tss sizeofTss gdtTssPl3]

/-- The table `gdt_init` loads; `ltr` has yet to mark the task of the last entry. -/
def loadedTable (tss : ℕ) (memory : ℕ → ℕ) : Table where
  entry i := (gdtWords tss)[i]?.getD (memory i)
  limit := 8 * gdtIdxLimit

/-- The words are the descriptors, but for the busy task. -/
theorem gdtWords_eq (address : tss < 2 ^ 32) :
    gdtWords tss = ((gdtDescriptors tss).set 6 (taskSegment tss 9 3)).map Descriptor.encode := by
  have zero : (0 : ℕ) < 2 ^ 32 := by decide
  unfold gdtWords
  rw [gdtDescriptor_eq zero (by decide), gdtDescriptor_eq zero (by decide),
    gdtDescriptor_eq zero (by decide), gdtDescriptor_eq address (by decide),
    gdtDescriptor_eq zero (by decide), gdtDescriptor_eq zero (by decide),
    gdtDescriptor_eq address (by decide)]
  rfl

/-- `ltr` marks the task and leaves the table of the other entries. -/
theorem loadedTable_loadTask (address : tss < 2 ^ 32) (memory : ℕ → ℕ) :
    (loadedTable tss memory).loadTask gdtSelTssPl3 = .ok (gdtTable tss memory) := by
  have found : (loadedTable tss memory).descriptor gdtSelTssPl3 = some (taskSegment tss 9 3) := by
    unfold Table.descriptor loadedTable
    rw [gdtWords_eq address]
    exact congrArg some (Descriptor.decode_encode
      (taskSegment_fits address (by decide) (by decide)))
  unfold Table.loadTask
  rw [if_neg (by decide), found]
  dsimp only
  rw [if_neg (by change ¬ (0 = 1 ∨ 9 ∉ [1, 9]); decide),
    if_neg (show ¬ (taskSegment tss 9 3).present = 0 from Nat.one_ne_zero)]
  unfold loadedTable gdtTable
  rw [gdtWords_eq address]
  refine congrArg Except.ok (congrArg (Table.mk · _) (funext fun i => ?_))
  rw [Function.update_apply]
  split_ifs with last
  · subst last
    rfl
  · have other : 6 ≠ i := fun same => last same.symm
    dsimp only
    rw [List.getElem?_map, List.getElem?_set_ne other]

/-- Before `ltr` the segments of ring 0 are the same. -/
theorem loadedTable_flat (address : tss < 2 ^ 32) (memory : ℕ → ℕ) {i type dpl : ℕ}
    (found : (gdtDescriptors tss)[i]? = some (flatSegment type dpl)) (sel : ℕ)
    (global : sel / 4 % 2 = 0) (entry : sel / 8 = i) (other : i < 6) (kind : type < 16)
    (ring : dpl < 4) : (loadedTable tss memory).descriptor sel = some (flatSegment type dpl) := by
  have bound : sel / 8 * 8 + 7 ≤ (loadedTable tss memory).limit := by
    change sel / 8 * 8 + 7 ≤ 56
    omega
  unfold Table.descriptor
  rw [if_pos ⟨global, bound⟩]
  unfold loadedTable
  dsimp only
  rw [gdtWords_eq address, List.getElem?_map, entry, List.getElem?_set_ne (by omega), found,
    Option.map_some, Option.getD_some, Descriptor.decode_encode (flatSegment_fits kind ring)]

/-- What the register of the table gets. -/
theorem gdtSel_fields (address : gdt < 2 ^ 32) :
    field 0 16 (gdt <<< 16 ||| 8 * gdtIdxLimit) = 8 * gdtIdxLimit ∧
      field 16 32 (gdt <<< 16 ||| 8 * gdtIdxLimit) = gdt := by
  rw [Nat.shiftLeft_eq, or_eq_add _ (by decide : 8 * gdtIdxLimit < 2 ^ 16)]
  unfold field gdtIdxLimit
  constructor <;> omega

/-- What `lgdt` makes of the seven stores. -/
theorem stored_entry (gdt tss : ℕ) (memory : ℕ → ℕ) (i : ℕ) :
    Function.update (Function.update (Function.update (Function.update (Function.update
      (Function.update (Function.update memory (gdt + 8 * 0) (gdtDescriptor 0 0 0))
        (gdt + 8 * 1) (gdtDescriptor 0 0xfffff gdtCodePl0))
        (gdt + 8 * 2) (gdtDescriptor 0 0xfffff gdtDataPl0))
        (gdt + 8 * 3) (gdtDescriptor tss sizeofTss gdtTssPl0))
        (gdt + 8 * 4) (gdtDescriptor 0 0xfffff gdtCodePl3))
        (gdt + 8 * 5) (gdtDescriptor 0 0xfffff gdtDataPl3))
        (gdt + 8 * 6) (gdtDescriptor tss sizeofTss gdtTssPl3) (gdt + 8 * i) =
      (gdtWords tss)[i]?.getD (memory (gdt + 8 * i)) := by
  have same : ∀ j, gdt + 8 * i = gdt + 8 * j ↔ i = j := fun j => by omega
  simp only [Function.update_apply, same]
  by_cases inside : i < 7
  · interval_cases i <;> rfl
  · rw [List.getElem?_eq_none (by change 7 ≤ i; omega)]
    simp (disch := omega) only [if_neg]
    rfl

/-- The segments of ring 0 load. -/
theorem setSeg_run (r : Seg) {memory : ℕ → ℕ} (table : p.gdt = loadedTable tss memory)
    (kernel : ring p.cpu.cs = 0) (address : tss < 2 ^ 32) :
    setSeg r gdtSelDataPl0 p = .ok ((), { p with cpu := p.cpu.setSeg r gdtSelDataPl0 }) := by
  have found := loadedTable_flat (i := 2) address memory rfl 0x10 rfl rfl (by decide) (by decide)
    (by decide)
  have loads : (p.gdt.loadData (ring p.cpu.cs) gdtSelDataPl0).isOk := by
    rw [table, kernel]
    exact Table.loadData_isOk.mpr (Or.inr ⟨_, found, flatSegment_readable (Or.inr rfl),
      Or.inr ⟨le_rfl, le_rfl⟩, Nat.one_ne_zero⟩)
  unfold setSeg
  cases result : p.gdt.loadData (ring p.cpu.cs) gdtSelDataPl0 with
  | error fault =>
      rw [result] at loads
      cases loads
  | ok d => rfl

theorem setCs_run {memory : ℕ → ℕ} (table : p.gdt = loadedTable tss memory)
    (kernel : ring p.cpu.cs = 0) (address : tss < 2 ^ 32) :
    setCs gdtSelCodePl0 p = .ok ((), { p with cpu := { p.cpu with cs := gdtSelCodePl0 } }) := by
  have found := loadedTable_flat (i := 1) address memory rfl 0x08 rfl rfl (by decide) (by decide)
    (by decide)
  have loads : p.gdt.returnCode (ring p.cpu.cs) gdtSelCodePl0 = .ok (flatSegment 10 0) := by
    rw [table, kernel]
    exact Table.returnCode_eq_ok.mpr ⟨by decide, found, flatSegment_code 0, le_rfl,
      Or.inr ⟨flatSegment_not_conforming (Or.inl rfl), rfl⟩, Nat.one_ne_zero⟩
  unfold setCs
  rw [loads]

theorem setSs_run {memory : ℕ → ℕ} (table : p.gdt = loadedTable tss memory)
    (kernel : ring p.cpu.cs = 0) (address : tss < 2 ^ 32) :
    setSs gdtSelDataPl0 p = .ok ((), { p with cpu := { p.cpu with ss := gdtSelDataPl0 } }) := by
  have found := loadedTable_flat (i := 2) address memory rfl 0x10 rfl rfl (by decide) (by decide)
    (by decide)
  have loads : p.gdt.loadStack (ring p.cpu.cs) gdtSelDataPl0 = .ok (flatSegment 2 0) := by
    rw [table, kernel]
    exact Table.loadStack_eq_ok.mpr ⟨by decide, found, rfl,
      ⟨rfl, by change 2 < 8 ∧ 2 / 2 % 2 = 1; decide⟩, rfl, Nat.one_ne_zero⟩
  unfold setSs
  rw [loads]

theorem setTr_run {memory : ℕ → ℕ} (table : p.gdt = loadedTable tss memory)
    (address : tss < 2 ^ 32) : setTr gdtSelTssPl3 p =
      .ok ((), { p with gdt := gdtTable tss memory, tr := gdtSelTssPl3 }) := by
  unfold setTr
  rw [table, loadedTable_loadTask address]

theorem update_bind {f : Processor → Processor} {k : Unit → Prog Processor Fault Unit} :
    (Prog.update f >>= k) p = k () (f p) := Prog.bind_of_ok rfl

/-- **`gdt_init`** finds no fault, whatever was loaded before. -/
theorem gdtInit_run (kernel : ring p.cpu.cs = 0) (gdtAddress : gdt < 2 ^ 32)
    (address : tss < 2 ^ 32) :
    ∃ memory, gdtInit gdt tss p = .ok ((),
      { cpu := ⟨p.cpu.reg, fun _ => gdtSelDataPl0, p.cpu.eip, gdtSelCodePl0, p.cpu.eflags,
          gdtSelDataPl0⟩
        memory := memory
        gdt := gdtTable tss fun i => p.memory (gdt + 8 * i)
        idt := p.idt
        tr := gdtSelTssPl3
        ss0 := gdtSelDataPl0
        esp0 := 0 }) := by
  obtain ⟨limit, start⟩ := gdtSel_fields gdtAddress
  unfold gdtInit storeGdt
  rw [update_bind, update_bind, update_bind, update_bind, update_bind, update_bind, update_bind,
    update_bind]
  unfold loadGdt
  rw [update_bind]
  dsimp only
  simp only [limit, start, stored_entry]
  -- The table the processor has from here on.
  have table : (⟨fun i => (gdtWords tss)[i]?.getD (p.memory (gdt + 8 * i)), 8 * gdtIdxLimit⟩ :
      Table) = loadedTable tss fun i => p.memory (gdt + 8 * i) := rfl
  rw [table, Prog.bind_of_ok (setCs_run (p := ⟨p.cpu, _, loadedTable tss _, p.idt, p.tr, _, _⟩) rfl kernel
      address),
    Prog.bind_of_ok (setSeg_run .ds rfl ring_gdtSelCodePl0 address),
    Prog.bind_of_ok (setSeg_run .es rfl ring_gdtSelCodePl0 address),
    Prog.bind_of_ok (setSeg_run .fs rfl ring_gdtSelCodePl0 address),
    Prog.bind_of_ok (setSeg_run .gs rfl ring_gdtSelCodePl0 address),
    Prog.bind_of_ok (setSs_run rfl ring_gdtSelCodePl0 address), setTr_run rfl address]
  refine ⟨_, congrArg (fun cpu => Except.ok ((), Processor.mk cpu _ _ _ _ _ _)) ?_⟩
  refine Cpu.ext rfl (funext fun r => ?_) rfl rfl rfl rfl
  cases r <;> rfl

/-- A segment that code or data can be read from covers the address space. -/
theorem gdtTable_linear {memory : ℕ → ℕ} {sel offset size : ℕ} {d : Descriptor}
    (address : tss < 2 ^ 32) (found : (gdtTable tss memory).descriptor sel = some d)
    (segment : d.segment = 1) (nonempty : 0 < size) (inside : offset + size ≤ 2 ^ 32) :
    d.linear offset size = some offset := by
  obtain ⟨-, entry⟩ := gdtTable_entry address found
  have flat : ∃ type dpl, d = flatSegment type dpl := by
    rw [gdtTable_descriptor address] at found
    split_ifs at found
    have member := List.mem_of_getElem? found
    simp only [gdtDescriptors, List.mem_cons, List.not_mem_nil, or_false] at member
    obtain rfl | rfl | rfl | rfl | rfl | rfl | rfl := member
    · exact absurd segment Nat.zero_ne_one
    · exact ⟨_, _, rfl⟩
    · exact ⟨_, _, rfl⟩
    · exact absurd segment Nat.zero_ne_one
    · exact ⟨_, _, rfl⟩
    · exact ⟨_, _, rfl⟩
    · exact absurd segment Nat.zero_ne_one
  obtain ⟨type, dpl, rfl⟩ := flat
  exact flatSegment_linear inside nonempty

/-- **What `gdt_init` sets up.**  It returns with the segments of ring 0 loaded.  From then
on ring 0 may load every segment of the table and the outer rings those of ring 3; the
stack is always in the ring of the code; a far jump or call cannot leave ring 3; and in
every segment offsets are linear addresses.  The memory behind the table, whose first byte
the limit includes, has no part in it. -/
theorem gdtInit_exact (kernel : ring p.cpu.cs = 0) (gdtAddress : gdt < 2 ^ 32)
    (address : tss < 2 ^ 32) :
    ∃ p', gdtInit gdt tss p = .ok ((), p') ∧
      (p'.cpu.cs = gdtSelCodePl0 ∧ p'.cpu.ss = gdtSelDataPl0 ∧
        ∀ r, p'.cpu.seg r = gdtSelDataPl0) ∧
      (∀ cpl sel, (p'.gdt.loadData cpl sel).isOk ↔ sel < 4 ∨
        (sel / 4 = 8 ∨ sel / 4 = 10) ∧ cpl ≤ 3 ∨ (sel = 0x08 ∨ sel = 0x10) ∧ cpl = 0) ∧
      (∀ cpl sel d, p'.gdt.loadStack cpl sel = .ok d ↔
        (cpl = 0 ∧ sel = 0x10 ∨ cpl = 3 ∧ sel = 0x2b) ∧ d = flatSegment 2 cpl) ∧
      (∀ cpl sel d, p'.gdt.returnCode cpl sel = .ok d ↔
        cpl = 0 ∧ sel = 0x08 ∧ d = flatSegment 10 0 ∨
          cpl ≤ 3 ∧ sel = 0x23 ∧ d = flatSegment 10 3) ∧
      (∀ sel target, p'.gdt.farTarget 3 sel = .ok target → target = .code 0x23) ∧
      ∀ cpl sel d, p'.gdt.loadData cpl sel = .ok (some d) → ∀ offset size, 0 < size →
        offset + size ≤ 2 ^ 32 → d.linear offset size = some offset := by
  obtain ⟨memory, run⟩ := gdtInit_run kernel gdtAddress address
  refine ⟨_, run, ⟨rfl, rfl, fun _ => rfl⟩, fun cpl sel => gdtTable_loadData address,
    fun cpl sel d => gdtTable_loadStack address, fun cpl sel d => gdtTable_returnCode address,
    fun sel target goes => gdtTable_farTarget address goes,
    fun cpl sel d loads offset size nonempty inside => ?_⟩
  obtain ⟨found, readable⟩ := Table.of_loadData loads
  exact gdtTable_linear address found readable.1 nonempty inside

/-- The processor as a boot loader may leave it, with a table of one code segment. -/
def loaderProcessor : Processor where
  cpu :=
    { reg := fun _ => 0, seg := fun _ => gdtSelDataPl0, eip := 0x100000, cs := gdtSelCodePl0,
      eflags := 2, ss := gdtSelDataPl0 }
  memory _ := 0xffffffffffffffff
  gdt := { entry := fun _ => (flatSegment 10 0).encode, limit := 15 }
  idt := { entry := fun _ => 0, limit := 0 }
  tr := selectorOf 0
  ss0 := selectorOf 0
  esp0 := 0

/-- With memory behind the table that looks like descriptors of ring 3. -/
theorem gdtInit_exact_loader :
    ∃ p', gdtInit 0xE0005000 0xE0005040 loaderProcessor = .ok ((), p') ∧
      (p'.cpu.cs = gdtSelCodePl0 ∧ p'.cpu.ss = gdtSelDataPl0 ∧
        ∀ r, p'.cpu.seg r = gdtSelDataPl0) ∧
      (∀ cpl sel, (p'.gdt.loadData cpl sel).isOk ↔ sel < 4 ∨
        (sel / 4 = 8 ∨ sel / 4 = 10) ∧ cpl ≤ 3 ∨ (sel = 0x08 ∨ sel = 0x10) ∧ cpl = 0) ∧
      (∀ cpl sel d, p'.gdt.loadStack cpl sel = .ok d ↔
        (cpl = 0 ∧ sel = 0x10 ∨ cpl = 3 ∧ sel = 0x2b) ∧ d = flatSegment 2 cpl) ∧
      (∀ cpl sel d, p'.gdt.returnCode cpl sel = .ok d ↔
        cpl = 0 ∧ sel = 0x08 ∧ d = flatSegment 10 0 ∨
          cpl ≤ 3 ∧ sel = 0x23 ∧ d = flatSegment 10 3) ∧
      (∀ sel target, p'.gdt.farTarget 3 sel = .ok target → target = .code 0x23) ∧
      ∀ cpl sel d, p'.gdt.loadData cpl sel = .ok (some d) → ∀ offset size, 0 < size →
        offset + size ≤ 2 ^ 32 → d.linear offset size = some offset :=
  gdtInit_exact (by decide) (by decide) (by decide)

end Init

end TrashOS
