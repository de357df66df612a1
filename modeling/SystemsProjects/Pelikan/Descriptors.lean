import Mathlib.Tactic.IntervalCases

/-!
# Descriptor tables (`gdt.c`, `idt.c`)

The segment descriptors and the interrupt gates as the kernel writes them, field by field, and as
the CPU reads them, from 64 bits.

- `gdtSetEntry`, `gdtInit`, `gdtLoad`; `idtSetEntry`, `idtInit`.
- `Segment.ofBits`, `Gate.ofBits`: the CPU's side. Decoding gives back what was encoded
  (`segment_bits`, `gate_bits`), but for the limit and the flags, which have twenty bits and four.
- `gdtInit_flat`: under the segments that `gdt_load` loads, every address stands for itself.
- `idtInit_gate`: the gates behind `idt_init`.

Both directions are written out on their own: the kernel's side with the shifts and masks of the
C code, the CPU's with the places of the fields in the 64 bits. That one undoes the other is
then a fact about bit vectors, proved field by field (`GdtEntry.ofBits_bits`,
`IdtEntry.ofBits_bits`).
-/

namespace SystemsProjects

namespace Pelikan

/-! ## What the kernel writes -/

/-- `struct gdt_entry` -/
structure GdtEntry where
  limit : BitVec 16
  baseLow : BitVec 16
  baseMiddle : BitVec 8
  access : BitVec 8
  granularity : BitVec 8
  baseHigh : BitVec 8
  deriving DecidableEq

/-- `struct idt_entry` -/
structure IdtEntry where
  handlerLow : BitVec 16
  segmentSelector : BitVec 16
  zero : BitVec 8
  type : BitVec 8
  handlerHigh : BitVec 16
  deriving DecidableEq

/-- `struct gdt_pointer` and `struct idt_pointer` -/
structure TablePointer where
  limit : BitVec 16
  base : BitVec 32
  deriving DecidableEq

/-- `gdt`, `idt`, and what the CPU knows of them. -/
structure Tables where
  gdt : Vector GdtEntry 3
  gdtPtr : TablePointer
  idt : Vector IdtEntry 256
  idtPtr : TablePointer

/-- What `gdt_set_entry` stores. -/
def gdtEntry (base limit : BitVec 32) (access flags : BitVec 8) : GdtEntry where
  baseLow := (base &&& 0xFFFF).setWidth 16
  baseMiddle := (base >>> 16 &&& 0x00FF).setWidth 8
  baseHigh := (base >>> 24 &&& 0x00FF).setWidth 8
  limit := (limit &&& 0xFFFF).setWidth 16
  access := access
  granularity :=
    ((flags.setWidth 32 &&& 0x0F) <<< 4 ||| (limit >>> 16 &&& 0x0F)).setWidth 8

/-- What `idt_set_entry` stores. -/
def idtEntry (handler : BitVec 32) (segmentSelector : BitVec 16) (zero type : BitVec 8) :
    IdtEntry where
  handlerLow := (handler &&& 0xFFFF).setWidth 16
  segmentSelector := segmentSelector
  zero := zero
  type := type
  handlerHigh := (handler >>> 16 &&& 0xFFFF).setWidth 16

/-- `gdt_set_entry` -/
def gdtSetEntry (t : Tables) (index : Fin 3) (base limit : BitVec 32) (access flags : BitVec 8) :
    Tables :=
  { t with gdt := t.gdt.set index (gdtEntry base limit access flags) }

/-- `gdt_init`, up to `gdt_load`; `gdt` is the address of the table. -/
def gdtInit (gdt : BitVec 32) (t : Tables) : Tables :=
  let t := gdtSetEntry t 0 0 0 0 0
  let t := gdtSetEntry t 1 0 0xFFFFF 0x9A 0x0C
  let t := gdtSetEntry t 2 0 0xFFFFF 0x92 0x0C
  { t with gdtPtr := { base := gdt, limit := 8 * 3 - 1 } }

/-- `idt_set_entry` -/
def idtSetEntry (t : Tables) (index : Fin 256) (handler : BitVec 32) (segmentSelector : BitVec 16)
    (zero type : BitVec 8) : Tables :=
  { t with idt := t.idt.set index (idtEntry handler segmentSelector zero type) }

/-- The loop of `idt_init`, from round `i` on. -/
def idtFill (isrTable : Fin 48 → BitVec 32) (i : Nat) (t : Tables) : Tables :=
  if h : i < 48 then
    idtFill isrTable (i + 1) (idtSetEntry t ⟨i, by omega⟩ (isrTable ⟨i, h⟩) 0x08 0 0x8E)
  else t
termination_by 48 - i

/-- `idt_init`; `idt` is the address of the table. -/
def idtInit (isrTable : Fin 48 → BitVec 32) (idt : BitVec 32) (t : Tables) : Tables :=
  { idtFill isrTable 0 t with idtPtr := { base := idt, limit := 8 * 256 - 1 } }

/-! ## What the CPU reads -/

/-- The packed structure, its first field lowest. -/
def GdtEntry.bits (e : GdtEntry) : BitVec 64 :=
  e.baseHigh ++ e.granularity ++ e.access ++ e.baseMiddle ++ e.baseLow ++ e.limit

/-- The packed structure, its first field lowest. -/
def IdtEntry.bits (e : IdtEntry) : BitVec 64 :=
  e.handlerHigh ++ e.type ++ e.zero ++ e.segmentSelector ++ e.handlerLow

/-- What the CPU knows of a segment. -/
structure Segment where
  base : BitVec 32
  limit : BitVec 20
  access : BitVec 8
  flags : BitVec 4
  deriving DecidableEq

namespace Segment

/-- The fields, from where they are in the 64 bits. -/
def ofBits (d : BitVec 64) : Segment where
  base := d.extractLsb' 56 8 ++ d.extractLsb' 32 8 ++ d.extractLsb' 16 16
  limit := d.extractLsb' 48 4 ++ d.extractLsb' 0 16
  access := d.extractLsb' 40 8
  flags := d.extractLsb' 52 4

/-- The present bit. -/
def isPresent (s : Segment) : Bool := s.access.getLsbD 7

/-- A segment of code or data, not one of the system's own. -/
def isMemory (s : Segment) : Bool := s.access.getLsbD 4

/-- Code may be executed there. -/
def isCode (s : Segment) : Bool := s.isMemory && s.access.getLsbD 3

/-- Data that may be written. -/
def isWritable (s : Segment) : Bool := s.isMemory && !s.access.getLsbD 3 && s.access.getLsbD 1

/-- The last offset; the limit may count pages. -/
def last (s : Segment) : Nat :=
  if s.flags.getLsbD 3 then 4096 * s.limit.toNat + 4095 else s.limit.toNat

/-- The linear address of an offset. -/
def translate (s : Segment) (offset : BitVec 32) : Option (BitVec 32) :=
  if offset.toNat ≤ s.last then some (s.base + offset) else none

end Segment

/-- The descriptor that the selector names. -/
def Tables.segment (t : Tables) (selector : BitVec 16) : Option Segment :=
  let index := selector.toNat / 8
  if index = 0 ∨ selector.getLsbD 2 = true then none
  else if 8 * index + 7 ≤ t.gdtPtr.limit.toNat then
    (t.gdt[index]?.map fun e => Segment.ofBits e.bits).filter fun s => s.isPresent
  else none

/-- The segment registers. -/
structure Selectors where
  cs : BitVec 16
  ds : BitVec 16
  es : BitVec 16
  fs : BitVec 16
  gs : BitVec 16
  ss : BitVec 16
  deriving DecidableEq

/-- `gdt_load`, behind `lgdt`: a jump into the code segment, and five times the data segment.
`none` is a fault. -/
def Tables.gdtLoad (t : Tables) : Option Selectors :=
  match t.segment 0x08, t.segment 0x10 with
  | some code, some data =>
    if code.isCode && data.isWritable then some ⟨0x08, 0x10, 0x10, 0x10, 0x10, 0x10⟩ else none
  | _, _ => none

/-- What the CPU knows of a gate. -/
structure Gate where
  offset : BitVec 32
  selector : BitVec 16
  type : BitVec 8
  deriving DecidableEq

namespace Gate

/-- The fields, from where they are in the 64 bits. -/
def ofBits (d : BitVec 64) : Gate where
  offset := d.extractLsb' 48 16 ++ d.extractLsb' 0 16
  selector := d.extractLsb' 16 16
  type := d.extractLsb' 40 8

/-- The present bit. -/
def isPresent (g : Gate) : Bool := g.type.getLsbD 7

/-- A 32-bit interrupt gate. -/
def isInterrupt (g : Gate) : Bool := g.type.extractLsb' 0 5 = 0x0E

end Gate

/-- An exception, with its error code. -/
structure CpuFault where
  vector : Fin 256
  code : BitVec 32

/-- The gate for an interrupt with the number `v`, as long as it is an interrupt gate for 32 bits;
the kernel has no others. `external` goes into the error code of a fault. -/
def Tables.gate (t : Tables) (external : Bool) (v : Fin 256) : Except CpuFault Gate :=
  let code : BitVec 32 := BitVec.ofNat 32 (8 * v.val + 2 + external.toNat)
  let g := Gate.ofBits t.idt[v].bits
  if t.idtPtr.limit.toNat < 8 * v.val + 7 then .error ⟨13, code⟩
  else if !g.isInterrupt then .error ⟨13, code⟩
  else if !g.isPresent then .error ⟨11, code⟩
  else
    match t.segment g.selector with
    | none => .error ⟨13, g.selector.setWidth 32⟩
    | some segment =>
      if segment.isCode && g.offset.toNat ≤ segment.last then .ok g
      else .error ⟨13, g.selector.setWidth 32⟩

/-- The exceptions for which the CPU pushes an error code. -/
def hasErrorCode (v : Fin 256) : Bool :=
  [8, 10, 11, 12, 13, 14, 17, 21, 29, 30].contains v.val

/-! ## Decoding -/

section Decoding

variable {w n k : Nat} {base limit : BitVec 32} {access flags : BitVec 8}

/-- Masking the low bits and cutting to them is cutting. -/
theorem setWidth_mask (x : BitVec w) (hn : n ≤ w) :
    (x &&& BitVec.ofNat w (2 ^ n - 1)).setWidth n = x.setWidth n := by
  ext i hi
  have hset : (BitVec.ofNat w (2 ^ n - 1)).getLsbD i = true := by
    rw [BitVec.getLsbD_ofNat, Nat.testBit_two_pow_sub_one]
    simp [hi, Nat.lt_of_lt_of_le hi hn]
  simp [hset]

theorem setWidth_shift (x : BitVec w) : (x >>> k).setWidth n = x.extractLsb' k n := by
  ext i hi
  simp

/-- Sixteen bits and eight, as the kernel cuts them out of a word. -/
theorem setWidth_low (x : BitVec 32) : (x &&& 0xFFFF).setWidth 16 = x.extractLsb' 0 16 :=
  (setWidth_mask x (by decide)).trans (BitVec.setWidth_eq_extractLsb' (by decide))

/-- The high half of a word, as the code takes it. -/
theorem setWidth_high (x : BitVec 32) :
    (x >>> 16 &&& 0xFFFF).setWidth 16 = x.extractLsb' 16 16 :=
  (setWidth_mask _ (by decide)).trans (setWidth_shift x)

theorem setWidth_byte (x : BitVec 32) (k : Nat) :
    (x >>> k &&& 0x00FF).setWidth 8 = x.extractLsb' k 8 :=
  (setWidth_mask _ (by decide)).trans (setWidth_shift x)

/-- The two halves of `granularity`. -/
theorem granularity_low (limit : BitVec 32) (flags : BitVec 8) :
    (gdtEntry base limit access flags).granularity.extractLsb' 0 4 = limit.extractLsb' 16 4 := by
  ext i hi
  interval_cases i <;> simp [gdtEntry]

/-- The flags are in the high half of the granularity byte. -/
theorem granularity_high (limit : BitVec 32) (flags : BitVec 8) :
    (gdtEntry base limit access flags).granularity.extractLsb' 4 4 = flags.setWidth 4 := by
  ext i hi
  interval_cases i <;> simp [gdtEntry]

open BitVec (extractLsb'_append_eq_of_le extractLsb'_append_eq_of_add_le
  extractLsb'_append_eq_left extractLsb'_append_eq_right)

/-- What the CPU makes of a descriptor, field by field. -/
theorem GdtEntry.ofBits_bits (e : GdtEntry) :
    Segment.ofBits e.bits =
      ⟨e.baseHigh ++ e.baseMiddle ++ e.baseLow, e.granularity.extractLsb' 0 4 ++ e.limit, e.access,
        e.granularity.extractLsb' 4 4⟩ := by
  -- the upper half starts behind the limit and the low half of the base
  have hskip : ∀ k n, e.bits.extractLsb' (32 + k) n =
      (e.baseHigh ++ e.granularity ++ e.access ++ e.baseMiddle).extractLsb' k n := by
    intro k n
    refine (extractLsb'_append_eq_of_le (by omega)).trans ?_
    rw [show 32 + k - 16 = 16 + k by omega]
    refine (extractLsb'_append_eq_of_le (by omega)).trans ?_
    rw [Nat.add_sub_cancel_left]
  have hlimit : e.bits.extractLsb' 0 16 = e.limit := extractLsb'_append_eq_right
  have hbaseLow : e.bits.extractLsb' 16 16 = e.baseLow :=
    (extractLsb'_append_eq_of_le (by decide)).trans extractLsb'_append_eq_right
  have hbaseMiddle : e.bits.extractLsb' 32 8 = e.baseMiddle :=
    (hskip 0 8).trans extractLsb'_append_eq_right
  have haccess : e.bits.extractLsb' 40 8 = e.access :=
    ((hskip 8 8).trans (extractLsb'_append_eq_of_le (by decide))).trans extractLsb'_append_eq_right
  have hgranularity : ∀ k n, k + n ≤ 8 →
      e.bits.extractLsb' (48 + k) n = e.granularity.extractLsb' k n := by
    intro k n hkn
    rw [show 48 + k = 32 + (16 + k) by omega, hskip]
    refine (extractLsb'_append_eq_of_le (by omega)).trans ?_
    rw [show 16 + k - 8 = 8 + k by omega]
    refine (extractLsb'_append_eq_of_le (by omega)).trans ?_
    rw [Nat.add_sub_cancel_left]
    exact extractLsb'_append_eq_of_add_le hkn
  have hbaseHigh : e.bits.extractLsb' 56 8 = e.baseHigh := by
    refine (hskip 24 8).trans ?_
    refine (extractLsb'_append_eq_of_le (by decide)).trans ?_
    refine (extractLsb'_append_eq_of_le (by decide)).trans ?_
    exact extractLsb'_append_eq_left
  have hlow := hgranularity 0 4 (by decide)
  have hhigh := hgranularity 4 4 (by decide)
  unfold Segment.ofBits
  rw [hlimit, hbaseLow, hbaseMiddle, haccess, hbaseHigh, hlow, hhigh]

/-- What the CPU makes of a gate, field by field. -/
theorem IdtEntry.ofBits_bits (e : IdtEntry) :
    Gate.ofBits e.bits = ⟨e.handlerHigh ++ e.handlerLow, e.segmentSelector, e.type⟩ := by
  have hlow : e.bits.extractLsb' 0 16 = e.handlerLow := extractLsb'_append_eq_right
  have hselector : e.bits.extractLsb' 16 16 = e.segmentSelector :=
    (extractLsb'_append_eq_of_le (by decide)).trans extractLsb'_append_eq_right
  have hskip : ∀ k n, e.bits.extractLsb' (40 + k) n =
      (e.handlerHigh ++ e.type).extractLsb' k n := by
    intro k n
    refine (extractLsb'_append_eq_of_le (by omega)).trans ?_
    rw [show 40 + k - 16 = 24 + k by omega]
    refine (extractLsb'_append_eq_of_le (by omega)).trans ?_
    rw [show 24 + k - 16 = 8 + k by omega]
    refine (extractLsb'_append_eq_of_le (by omega)).trans ?_
    rw [Nat.add_sub_cancel_left]
  have htype : e.bits.extractLsb' 40 8 = e.type := (hskip 0 8).trans extractLsb'_append_eq_right
  have hhigh : e.bits.extractLsb' 48 16 = e.handlerHigh :=
    (hskip 8 16).trans extractLsb'_append_eq_left
  unfold Gate.ofBits
  rw [hlow, hselector, htype, hhigh]

/-- What the CPU makes of an entry of `gdt_set_entry`. -/
theorem segment_bits (base limit : BitVec 32) (access flags : BitVec 8) :
    Segment.ofBits (gdtEntry base limit access flags).bits =
      ⟨base, limit.setWidth 20, access, flags.setWidth 4⟩ := by
  have hbase : base.extractLsb' 24 8 ++ base.extractLsb' 16 8 ++ base.extractLsb' 0 16 = base := by
    rw [BitVec.extractLsb'_append_extractLsb'_eq_extractLsb' (by rfl)]
    exact BitVec.extractLsb'_append_extractLsb'
  have hlimit : limit.extractLsb' 16 4 ++ limit.extractLsb' 0 16 = limit.setWidth 20 :=
    (BitVec.extractLsb'_append_extractLsb'_eq_extractLsb' rfl).trans
      (BitVec.setWidth_eq_extractLsb' (by decide)).symm
  rw [GdtEntry.ofBits_bits, granularity_low, granularity_high]
  dsimp only [gdtEntry]
  rw [setWidth_byte, setWidth_byte, setWidth_low, setWidth_low, hbase, hlimit]

/-- What the CPU makes of an entry of `idt_set_entry`. -/
theorem gate_bits (handler : BitVec 32) (selector : BitVec 16) (zero type : BitVec 8) :
    Gate.ofBits (idtEntry handler selector zero type).bits = ⟨handler, selector, type⟩ := by
  rw [IdtEntry.ofBits_bits]
  dsimp only [idtEntry]
  rw [setWidth_high, setWidth_low, BitVec.extractLsb'_append_extractLsb']

/-- Both tables: the CPU finds in an entry what it was set to, and in the other entries what was
there before. Of the limit twenty bits are kept, and four of the flags. -/
theorem descriptors_decode (t : Tables) (base limit handler : BitVec 32)
    (selector : BitVec 16) (access flags zero type : BitVec 8) :
    (∀ i j : Fin 3, Segment.ofBits (gdtSetEntry t i base limit access flags).gdt[j].bits =
      if j = i then ⟨base, limit.setWidth 20, access, flags.setWidth 4⟩
      else Segment.ofBits t.gdt[j].bits) ∧
    ∀ i j : Fin 256, Gate.ofBits (idtSetEntry t i handler selector zero type).idt[j].bits =
      if j = i then ⟨handler, selector, type⟩ else Gate.ofBits t.idt[j].bits := by
  constructor
  · intro i j
    show Segment.ofBits ((t.gdt.set i (gdtEntry base limit access flags))[j.val]).bits = _
    rw [Vector.getElem_set]
    by_cases heq : j = i
    · rw [if_pos (congrArg Fin.val heq).symm, if_pos heq, segment_bits]
    · rw [if_neg fun h => heq (Fin.ext h.symm), if_neg heq]
      rfl
  · intro i j
    show Gate.ofBits ((t.idt.set i (idtEntry handler selector zero type))[j.val]).bits = _
    rw [Vector.getElem_set]
    by_cases heq : j = i
    · rw [if_pos (congrArg Fin.val heq).symm, if_pos heq, gate_bits]
    · rw [if_neg fun h => heq (Fin.ext h.symm), if_neg heq]
      rfl

end Decoding

/-! ## The tables of the kernel -/

section Kernel

variable {t : Tables} {gdt idt : BitVec 32} {isrTable : Fin 48 → BitVec 32}

/-- The flat segments. -/
def flatSegment (access : BitVec 8) : Segment where
  base := 0
  limit := 0xFFFFF
  access := access
  flags := 0xC

/-- A flat segment translates every address to itself. -/
theorem flatSegment_translate (access : BitVec 8) (a : BitVec 32) :
    (flatSegment access).translate a = some a := by
  have hlast : (flatSegment access).last = 4294967295 := by simp [Segment.last, flatSegment]
  have hlt := a.isLt
  rw [Segment.translate, hlast, if_pos (by omega)]
  exact congrArg some (BitVec.zero_add a)

theorem gdtInit_segment (t : Tables) (gdt : BitVec 32) :
    (gdtInit gdt t).segment 0x08 = some (flatSegment 0x9A) ∧
      (gdtInit gdt t).segment 0x10 = some (flatSegment 0x92) := by
  have hcode : (gdtInit gdt t).gdt[1]? = some (gdtEntry 0 0xFFFFF 0x9A 0x0C) := by
    simp [gdtInit, gdtSetEntry]
  have hdata : (gdtInit gdt t).gdt[2]? = some (gdtEntry 0 0xFFFFF 0x92 0x0C) := by
    simp [gdtInit, gdtSetEntry]
  constructor
  · show ((gdtInit gdt t).gdt[1]?.map fun e => Segment.ofBits e.bits).filter _ = _
    rw [hcode, Option.map_some, segment_bits]
    rfl
  · show ((gdtInit gdt t).gdt[2]?.map fun e => Segment.ofBits e.bits).filter _ = _
    rw [hdata, Option.map_some, segment_bits]
    rfl

/-- The segments can be loaded, and under them every address stands for itself. -/
theorem gdtInit_flat (t : Tables) (gdt : BitVec 32) :
    ∃ r, (gdtInit gdt t).gdtLoad = some r ∧
      ∀ selector ∈ [r.cs, r.ds, r.es, r.fs, r.gs, r.ss], ∃ segment,
        (gdtInit gdt t).segment selector = some segment ∧
          ∀ a, segment.translate a = some a := by
  obtain ⟨hcode, hdata⟩ := gdtInit_segment t gdt
  refine ⟨⟨0x08, 0x10, 0x10, 0x10, 0x10, 0x10⟩, ?_, fun selector hmem => ?_⟩
  · rw [Tables.gdtLoad, hcode, hdata]
    rfl
  · simp only [List.mem_cons, List.not_mem_nil, or_false, or_self] at hmem
    rcases hmem with rfl | rfl
    · exact ⟨_, hcode, flatSegment_translate _⟩
    · exact ⟨_, hdata, flatSegment_translate _⟩

/-- The loop from round `i` on: the entries from there to the last one, and no others. -/
theorem idtFill_getElem {i : Nat} (hi : i ≤ 48) {v : Nat} (hv : v < 256) :
    (idtFill isrTable i t).idt[v] =
      if h : i ≤ v ∧ v < 48 then idtEntry (isrTable ⟨v, h.2⟩) 0x08 0 0x8E else t.idt[v] := by
  fun_induction idtFill isrTable i t with
  | case1 i t h ih =>
    rw [ih (by omega)]
    by_cases hlater : i + 1 ≤ v ∧ v < 48
    · rw [dif_pos hlater, dif_pos (by omega)]
    · rw [dif_neg hlater]
      dsimp only [idtSetEntry]
      rw [Vector.getElem_set]
      by_cases heq : i = v
      · subst heq
        rw [if_pos rfl, dif_pos ⟨Nat.le_refl i, h⟩]
      · rw [if_neg heq, dif_neg (by omega)]
  | case2 i t h => rw [dif_neg (by omega)]

theorem idtFill_gdt {i : Nat} :
    (idtFill isrTable i t).gdt = t.gdt ∧ (idtFill isrTable i t).gdtPtr = t.gdtPtr := by
  fun_induction idtFill isrTable i t with
  | case1 i t h ih => exact ih
  | case2 i t h => exact ⟨rfl, rfl⟩

/-- The gates behind `idt_init`; the others are left as they were. -/
theorem idtInit_gate (t : Tables) (v : Fin 256) :
    Gate.ofBits (idtInit isrTable idt t).idt[v].bits =
      if h : v.val < 48 then ⟨isrTable ⟨v.val, h⟩, 0x08, 0x8E⟩
      else Gate.ofBits t.idt[v].bits := by
  show Gate.ofBits ((idtFill isrTable 0 t).idt[v.val]).bits = _
  rw [idtFill_getElem (by decide) v.isLt]
  by_cases h : v.val < 48
  · rw [dif_pos ⟨Nat.zero_le _, h⟩, dif_pos h, gate_bits]
  · rw [dif_neg (by omega), dif_neg h]
    rfl

end Kernel

end Pelikan

end SystemsProjects
