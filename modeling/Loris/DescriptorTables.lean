import Loris.Descriptor
import Loris.InterruptControllers
import Loris.InterruptFrame
/-!
# DescriptorTables — `GlobalDescriptorTable.cpp` and the gates of `InterruptDescriptorTable.cpp`

The tables are bytes in memory, as the structures of the two headers lay them out, and the processor reads them back
(`Descriptor`).  Behind `InitGDT` and `Init_IDT` segments have no effect on addresses (`flat`), and each of the vectors
below 48 comes to its stub as `interrupt` has it; the others are faults (`delivered`).
-/
namespace Loris

open ByteMem X86 X86.Cpu Descriptor

/-- The symbols: the tables, what `lgdt` and `lidt` are given, and the stubs, `isr0` to `isr31` and `irq32` to `irq47`.
-/
structure TableSymbols where
  gdt_entries : U32
  gtdPointer : U32
  entries : U32
  idtPointer : U32
  stub : Nat → U32

/-- The processor with its table registers, and the interrupt controllers. -/
structure TableState where
  cpu : Cpu
  gdtr : TableReg
  idtr : TableReg
  pics : Pic8259.Pair

def GDT_NUM_ENTRIES : Nat := 3
def IDT_NUM_ENTRIES : Nat := 256
def sizeofEntry : Nat := 8
def sizeofGate : Nat := 8

/-- The entry of a table at `p`. -/
def entryAt (p : U32) (num : Nat) : U32 := p + BitVec.ofNat 32 (8 * num)

/-- `CreateEntry`, in the table at `p`. -/
def createEntry (p : U32) (m : Mem) (num : Nat) (base limit : U32) (access gran : Byte) : Mem :=
  let e := entryAt p num
  let m := storeHalf m (e + 2) ((base &&& 0xFFFF).setWidth 16)
  let m := storeByte m (e + 4) (((base >>> 16) &&& 0xFF).setWidth 8)
  let m := storeByte m (e + 7) (((base >>> 24) &&& 0xFF).setWidth 8)
  let m := storeHalf m e ((limit &&& 0xFFFF).setWidth 16)
  let m := storeByte m (e + 6) (((limit >>> 16) &&& 0x0F).setWidth 8)
  let m := storeByte m (e + 6) (m (e + 6) ||| (gran &&& 0xF0))
  storeByte m (e + 5) access

/-- `CreateGate`, in the table at `p`.  The selector is an `unsigned char`. -/
def createGate (p : U32) (m : Mem) (num : Byte) (base : U32) (sel flags : Byte) : Mem :=
  let e := entryAt p num.toNat
  let m := storeHalf m e ((base &&& 0xFFFF).setWidth 16)
  let m := storeHalf m (e + 6) (((base >>> 16) &&& 0xFFFF).setWidth 16)
  let m := storeHalf m (e + 2) (sel.setWidth 16)
  let m := storeByte m (e + 4) 0
  storeByte m (e + 5) flags

/-- A segment register is loaded, for data or, by the far jump, for code. -/
def loadSegment (s : TableState) (a : Access) (r : Sreg) (sel : BitVec 16) : Option TableState :=
  (s.gdtr.reach s.cpu.mem a sel 0).map fun _ => { s with cpu := s.cpu.setSreg r sel }

/-- The registers that `gdt_load_and_set` loads, in turn. -/
def gdtLoads : List (Access × Sreg × BitVec 16) :=
  [(.read, .ds, 0x10), (.read, .es, 0x10), (.read, .fs, 0x10), (.read, .gs, 0x10), (.write, .ss, 0x10),
    (.fetch, .cs, 0x08)]

/-- `gdt_load_and_set`. -/
def gdtLoadAndSet (s : TableState) (p : U32) : Option TableState :=
  gdtLoads.foldlM (fun s l => loadSegment s l.1 l.2.1 l.2.2)
    { s with cpu := s.cpu.setReg .eax (p &&& 0xFFFF0000 ||| 0x10), gdtr := .at s.cpu.mem p }

/-- `InitGDT`. -/
def initGDT (y : TableSymbols) (s : TableState) : Option TableState :=
  let m := storeHalf s.cpu.mem y.gtdPointer (BitVec.ofNat 16 (sizeofEntry * GDT_NUM_ENTRIES - 1))
  let m := store m (y.gtdPointer + 2) y.gdt_entries
  let m := createEntry y.gdt_entries m 0 0 0 0 0
  let m := createEntry y.gdt_entries m 1 0 0xFFFFFFFF 0x9A 0xCF
  let m := createEntry y.gdt_entries m 2 0 0xFFFFFFFF 0x92 0xCF
  gdtLoadAndSet { s with cpu := { s.cpu with mem := m } } y.gtdPointer

/-- The calls of `CreateGate` for the vectors of `l`. -/
def createGates (y : TableSymbols) (m : Mem) (l : List Nat) : Mem :=
  l.foldl (fun m n => createGate y.entries m (BitVec.ofNat 8 n) (y.stub n) 0x08 0x8E) m

/-- `Init_IDT`. -/
def initIDT (y : TableSymbols) (s : TableState) : TableState :=
  let m := fill s.cpu.mem y.entries 0 (sizeofGate * IDT_NUM_ENTRIES)
  let m := storeHalf m y.idtPointer (BitVec.ofNat 16 (IDT_NUM_ENTRIES * sizeofGate - 1))
  let m := store m (y.idtPointer + 2) y.entries
  let m := createGates y m (List.range 32)
  -- `load_idt`
  let idtr := TableReg.at m y.idtPointer
  let pics := s.pics.outs remapPIC
  let m := createGates y m (List.range' 32 16)
  { s with cpu := { s.cpu with mem := m }, idtr := idtr, pics := pics }

/-- What the processor pushes, and where it goes on, for an interrupt through a gate to a segment. -/
def enterGate (tss : Tss) (g : Gate) (s : Segment) (n : Nat) (error : U32) (c : Cpu) : Cpu :=
  let inner := if s.dpl < (rpl (c.sreg .cs)).toNat then
      (((c.setReg .esp tss.esp0).setSreg .ss tss.ss0).push id ((c.sreg .ss).setWidth 32)).push id (c.reg .esp)
    else c
  let pushed := ((inner.push id c.eflags).push id ((c.sreg .cs).setWidth 32)).push id c.eip
  let pushed := if pushesErrorCode n then pushed.push id error else pushed
  { pushed.setSreg .cs (g.selector &&& 0xFFFC ||| BitVec.ofNat 16 s.dpl) with
    eip := g.offset, eflags := c.eflags &&& ~~~0x34300 }

/-- The processor delivers an interrupt.  The segment of the gate is one of code, not of an outer level. -/
def deliver (gdtr idtr : TableReg) (tss : Tss) (n : Nat) (error : U32) (c : Cpu) : Option Cpu := do
  let g ← idtr.gate c.mem n
  let s ← gdtr.segment c.mem g.selector
  if s.present ∧ s.ordinary ∧ s.code ∧ ¬ s.other ∧ s.dpl ≤ (rpl (c.sreg .cs)).toNat ∧ g.offset.toNat ≤ s.last then
    some (enterGate tss g s n error c)
  else none

/-! ## One entry -/

variable {p x : U32} {m : Mem} {num : Nat} {base limit : U32} {access gran : Byte}

theorem createEntry_apply (h : 8 ≤ (x - entryAt p num).toNat) :
    createEntry p m num base limit access gran x = m x := by
  unfold createEntry
  generalize entryAt p num = e at h
  simp (disch := first | bv_omega | fail) only [storeByte_apply_of_ne, storeHalf_apply_of_ge]

theorem createGate_apply {n sel flags : Byte} (h : 8 ≤ (x - entryAt p n.toNat).toNat) :
    createGate p m n base sel flags x = m x := by
  unfold createGate
  generalize entryAt p n.toNat = e at h
  simp (disch := first | bv_omega | fail) only [storeByte_apply_of_ne, storeHalf_apply_of_ge]

/-- Bits `s` to `s + w` of a word, as a field. -/
theorem toNat_bits (v : U32) {s w f : Nat} (hw : w < 32) (hf : w ≤ f) :
    (((v >>> s) &&& BitVec.ofNat 32 (2 ^ w - 1)).setWidth f).toNat = v.toNat / 2 ^ s % 2 ^ w := by
  have hp : 2 ^ w - 1 < 2 ^ 32 := Nat.lt_of_lt_of_le (Nat.sub_lt (Nat.two_pow_pos w) Nat.one_pos)
    (Nat.pow_le_pow_right Nat.two_pos hw.le)
  rw [BitVec.toNat_setWidth, BitVec.toNat_and, BitVec.toNat_ofNat, Nat.mod_eq_of_lt hp,
    Nat.and_two_pow_sub_one_eq_mod, BitVec.toNat_ushiftRight, Nat.shiftRight_eq_div_pow]
  exact Nat.mod_eq_of_lt (Nat.lt_of_lt_of_le (Nat.mod_lt _ (Nat.two_pow_pos w)) (Nat.pow_le_pow_right Nat.two_pos hf))

theorem toNat_lowBits (v : U32) {w f : Nat} (hw : w < 32) (hf : w ≤ f) :
    ((v &&& BitVec.ofNat 32 (2 ^ w - 1)).setWidth f).toNat = v.toNat % 2 ^ w := by
  have h := toNat_bits v (s := 0) hw hf
  rwa [BitVec.ushiftRight_zero, pow_zero, Nat.div_one] at h

/-- The low half of one byte and the high half of another. -/
theorem toNat_nibbles {b c : Byte} (hb : b.toNat < 16) :
    (b ||| c &&& 0xF0).toNat = c.toNat / 16 * 16 + b.toNat := by
  have hc : c &&& (0xF0 : Byte) = (c >>> 4) <<< 4 := by
    apply BitVec.eq_of_getLsbD_eq
    intro i hi
    have hm : ∀ i, i < 8 → (0xF0#8).getLsbD i = decide (4 ≤ i) := by decide
    rw [BitVec.getLsbD_and, show (0xF0 : Byte) = 0xF0#8 from rfl, hm i hi]
    by_cases h4 : 4 ≤ i
    · simp [h4, hi, show ¬ i < 4 by omega]
    · simp [h4, show i < 4 by omega]
  have hshift : (c &&& (0xF0 : Byte)).toNat = c.toNat / 16 * 2 ^ 4 := by
    rw [hc, BitVec.toNat_shiftLeft, BitVec.toNat_ushiftRight, Nat.shiftRight_eq_div_pow, Nat.shiftLeft_eq]
    have := c.isLt
    omega
  rw [BitVec.toNat_or, hshift, Nat.or_comm, Nat.mul_comm, ← Nat.two_pow_add_eq_or_of_lt hb]
  omega

theorem toNat_low (v : U32) : ((v &&& 0xFFFF).setWidth 16).toNat = v.toNat % 0x10000 :=
  toNat_lowBits v (w := 16) (by decide) (by decide)

/-- **What `CreateEntry` writes** is read back as the base, the low 20 bits of the limit, the access byte and the high
half of the granularity. -/
theorem segment_createEntry : Segment.at (createEntry p m num base limit access gran) (entryAt p num) =
    ⟨base, limit.setWidth 20, access, (gran >>> 4).setWidth 4⟩ := by
  have hmid : (((base >>> 16) &&& 0xFF).setWidth 8).toNat = base.toNat / 0x10000 % 0x100 :=
    toNat_bits base (w := 8) (by decide) (by decide)
  have hhigh : (((base >>> 24) &&& 0xFF).setWidth 8).toNat = base.toNat / 0x1000000 % 0x100 :=
    toNat_bits base (w := 8) (by decide) (by decide)
  have hlimit : (((limit >>> 16) &&& 0x0F).setWidth 8).toNat = limit.toNat / 0x10000 % 0x10 :=
    toNat_bits limit (w := 4) (by decide) (by decide)
  have hgran := toNat_nibbles (c := gran) (hlimit.trans_lt (Nat.mod_lt _ (by decide)))
  unfold createEntry Segment.at
  generalize entryAt p num = e
  simp (disch := first | bv_omega | fail) only [storeByte_apply_of_ne, storeHalf_apply_of_ge, storeByte_same,
    loadHalf_storeHalf_same, loadHalf_storeHalf_of_ge, loadHalf_storeByte_of_ne]
  have hbase := base.isLt
  rw [Segment.mk.injEq]
  refine ⟨?_, ?_, rfl, ?_⟩ <;> apply BitVec.eq_of_toNat_eq
  · rw [BitVec.toNat_ofNat, toNat_low, hmid, hhigh]
    omega
  · rw [BitVec.toNat_ofNat, toNat_low, hgran, hlimit, BitVec.toNat_setWidth]
    omega
  · rw [BitVec.toNat_ofNat, hgran, hlimit, BitVec.toNat_setWidth, BitVec.toNat_ushiftRight,
      Nat.shiftRight_eq_div_pow]
    omega

/-- **What `CreateGate` writes** is read back as the address of the handler, the selector and the flags. -/
theorem gate_createGate {n sel flags : Byte} : Gate.at (createGate p m n base sel flags) (entryAt p n.toNat) =
    ⟨base, sel.setWidth 16, flags⟩ := by
  have hhigh : (((base >>> 16) &&& 0xFFFF).setWidth 16).toNat = base.toNat / 0x10000 % 0x10000 :=
    toNat_bits base (w := 16) (by decide) (by decide)
  unfold createGate Gate.at
  generalize entryAt p n.toNat = e
  simp (disch := first | bv_omega | fail) only [storeByte_same, loadHalf_storeHalf_same, loadHalf_storeHalf_of_ge,
    loadHalf_storeByte_of_ne]
  have hbase := base.isLt
  rw [Gate.mk.injEq]
  refine ⟨BitVec.eq_of_toNat_eq ?_, rfl, rfl⟩
  rw [BitVec.toNat_ofNat, toNat_low, hhigh]
  omega

/-! ## The two tables -/

/-- The symbols' places in memory, with their sizes. -/
def TableSymbols.regions (y : TableSymbols) : List (Nat × Nat) :=
  [(y.gdt_entries.toNat, 24), (y.gtdPointer.toNat, 6), (y.entries.toNat, 2048), (y.idtPointer.toNat, 6)]

structure TableSymbols.Apart (y : TableSymbols) : Prop where
  fits : ∀ r ∈ y.regions, r.1 + r.2 ≤ 2 ^ 32
  apart : y.regions.Pairwise fun r r' => r.1 + r.2 ≤ r'.1 ∨ r'.1 + r'.2 ≤ r.1

variable {y : TableSymbols} {i : Nat} {m' : Mem} {r : TableReg}

theorem toNat_entryAt (h : p.toNat + 8 * num < 2 ^ 32) : (entryAt p num).toNat = p.toNat + 8 * num :=
  toNat_add_ofNat h

theorem keeps_createEntry (h : p.toNat + 8 * num + 8 ≤ 2 ^ 32) :
    Keeps (p.toNat + 8 * num) (p.toNat + 8 * num + 8) m (createEntry p m num base limit access gran) := fun x hx =>
  createEntry_apply (by
    rw [BitVec.toNat_sub, toNat_entryAt (by omega)]
    have := x.isLt
    omega)

theorem keeps_createGate {n sel flags : Byte} (h : p.toNat + 8 * n.toNat + 8 ≤ 2 ^ 32) :
    Keeps (p.toNat + 8 * n.toNat) (p.toNat + 8 * n.toNat + 8) m (createGate p m n base sel flags) := fun x hx =>
  createGate_apply (by
    rw [BitVec.toNat_sub, toNat_entryAt (by omega)]
    have := x.isLt
    omega)

theorem segment_keeps {lo hi : Nat} (h : Keeps lo hi m m') (hfit : p.toNat + 8 * num + 8 ≤ 2 ^ 32)
    (hout : p.toNat + 8 * num + 8 ≤ lo ∨ hi ≤ p.toNat + 8 * num) :
    Segment.at m' (entryAt p num) = Segment.at m (entryAt p num) :=
  Segment.at_congr fun x hx => h x (by
    rw [BitVec.toNat_sub, toNat_entryAt (by omega)] at hx
    have := x.isLt
    omega)

theorem gate_keeps {lo hi : Nat} (h : Keeps lo hi m m') (hfit : p.toNat + 8 * num + 8 ≤ 2 ^ 32)
    (hout : p.toNat + 8 * num + 8 ≤ lo ∨ hi ≤ p.toNat + 8 * num) :
    Gate.at m' (entryAt p num) = Gate.at m (entryAt p num) :=
  Gate.at_congr fun x hx => h x (by
    rw [BitVec.toNat_sub, toNat_entryAt (by omega)] at hx
    have := x.isLt
    omega)

theorem tableReg_keeps {lo hi : Nat} (h : Keeps lo hi m m') (hfit : p.toNat + 6 ≤ 2 ^ 32)
    (hout : p.toNat + 6 ≤ lo ∨ hi ≤ p.toNat) : TableReg.at m' p = TableReg.at m p := by
  have h2 : (p + 2).toNat = p.toNat + 2 := toNat_add_ofNat (i := 2) (by omega)
  unfold TableReg.at
  rw [h.loadHalf_eq (by omega) (by omega), h.load_eq (by omega) (by omega)]

/-- A table register that is written, as it is read. -/
theorem tableReg_stored (m : Mem) (limit : BitVec 16) (base : U32) (h : p.toNat + 6 ≤ 2 ^ 32) :
    TableReg.at (store (storeHalf m p limit) (p + 2) base) p = ⟨limit, base⟩ ∧
      Keeps p.toNat (p.toNat + 6) m (store (storeHalf m p limit) (p + 2) base) := by
  have h2 : (p + 2).toNat = p.toNat + 2 := toNat_add_ofNat (i := 2) (by omega)
  have hstore := keeps_store (storeHalf m p limit) (p + 2) base (by omega)
  refine ⟨?_, ((keeps_storeHalf m p limit (by omega)).mono (le_refl _) (by omega)).trans
    (hstore.mono (by omega) (by omega))⟩
  unfold TableReg.at
  rw [load_store_same, hstore.loadHalf_eq (by omega) (by omega), loadHalf_storeHalf_same]

/-- A table with the code segment and the data segment of `InitGDT`. -/
structure Flat (r : TableReg) (m : Mem) : Prop where
  limit : r.limit = 23
  code : Segment.at m (entryAt r.base 1) = ⟨0, 0xFFFFF, 0x9A, 0xC⟩
  data : Segment.at m (entryAt r.base 2) = ⟨0, 0xFFFFF, 0x92, 0xC⟩

def codeSegment : Segment := ⟨0, 0xFFFFF, 0x9A, 0xC⟩
def dataSegment : Segment := ⟨0, 0xFFFFF, 0x92, 0xC⟩

theorem Flat.segment (h : Flat r m) (sel : BitVec 16) : r.segment m sel =
    if sel.toNat / 4 = 2 then some codeSegment else if sel.toNat / 4 = 4 then some dataSegment else none := by
  have hlim : r.limit.toNat = 23 := by rw [h.limit]; rfl
  unfold TableReg.segment
  rw [hlim]
  by_cases h1 : sel.toNat / 4 = 2
  · rw [if_neg (by omega), if_pos h1, show sel.toNat / 8 = 1 by omega]
    exact congrArg some h.code
  by_cases h2 : sel.toNat / 4 = 4
  · rw [if_neg (by omega), if_neg h1, if_pos h2, show sel.toNat / 8 = 2 by omega]
    exact congrArg some h.data
  rw [if_pos (by omega), if_neg h1, if_neg h2]

/-- **Segments have no effect on addresses**: what is read through either selector, written through the second or
fetched through the first has its offset as its linear address; all else is a fault. -/
theorem Flat.reach (h : Flat r m) (a : Access) (sel : BitVec 16) (offset : U32) : r.reach m a sel offset =
    if sel = 0x08 ∧ a ≠ .write ∨ sel = 0x10 ∧ a ≠ .fetch then some offset else none := by
  have h8 : sel = 0x08 ↔ sel.toNat = 8 := BitVec.toNat_inj.symm
  have h16 : sel = 0x10 ↔ sel.toNat = 16 := BitVec.toNat_inj.symm
  have hseg := h.segment sel
  simp only [h8, h16]
  by_cases h1 : sel.toNat / 4 = 2
  · rw [if_pos h1] at hseg
    rw [TableReg.reach_whole hseg (by decide) rfl (by decide) (by decide)]
    have hp : codeSegment.permits a = true ↔ a ≠ .write := by cases a <;> decide
    have hz : sel.toNat % 4 = 0 ↔ sel.toNat = 8 := by omega
    have hne : sel.toNat ≠ 16 := by omega
    exact if_congr (by simp only [hp, hz, hne, false_and, or_false, and_comm]) rfl rfl
  by_cases h2 : sel.toNat / 4 = 4
  · rw [if_neg h1, if_pos h2] at hseg
    rw [TableReg.reach_whole hseg (by decide) rfl (by decide) (by decide)]
    have hp : dataSegment.permits a = true ↔ a ≠ .fetch := by cases a <;> decide
    have hz : sel.toNat % 4 = 0 ↔ sel.toNat = 16 := by omega
    have hne : sel.toNat ≠ 8 := by omega
    exact if_congr (by simp only [hp, hz, hne, false_and, false_or, and_comm]) rfl rfl
  rw [if_neg h1, if_neg h2] at hseg
  unfold TableReg.reach
  rw [hseg, Option.bind_none, if_neg (by omega)]

/-- **`CreateGate` for a list of vectors** makes their gates, and leaves the others of the table. -/
theorem gate_createGates (hfit : y.entries.toNat + 2048 ≤ 2 ^ 32) (hi : i < 256) : ∀ {l : List Nat} {m : Mem},
    (∀ n ∈ l, n < 256) → Gate.at (createGates y m l) (entryAt y.entries i) =
      if i ∈ l then ⟨y.stub i, 0x08, 0x8E⟩ else Gate.at m (entryAt y.entries i)
  | [], _, _ => rfl
  | n :: l, m, hl => by
    have hn : n < 256 := hl n List.mem_cons_self
    have hnat : (BitVec.ofNat 8 n).toNat = n := by rw [BitVec.toNat_ofNat]; omega
    have ih := gate_createGates hfit hi (m := createGate y.entries m (BitVec.ofNat 8 n) (y.stub n) 0x08 0x8E)
      fun k hk => hl k (List.mem_cons_of_mem n hk)
    refine ih.trans ?_
    by_cases hmem : i ∈ l
    · rw [if_pos hmem, if_pos (List.mem_cons_of_mem n hmem)]
    rw [if_neg hmem]
    by_cases heq : i = n
    · subst heq
      have hsame := @gate_createGate y.entries m (y.stub i) (BitVec.ofNat 8 i) 0x08 0x8E
      rw [hnat] at hsame
      rw [hsame, if_pos List.mem_cons_self]
      rfl
    · rw [if_neg (by rw [List.mem_cons, not_or]; exact ⟨heq, hmem⟩)]
      exact gate_keeps (keeps_createGate (p := y.entries) (n := BitVec.ofNat 8 n) (by omega)) (by omega) (by omega)

theorem keeps_createGates (hfit : y.entries.toNat + 2048 ≤ 2 ^ 32) : ∀ {l : List Nat} {m : Mem}, (∀ n ∈ l, n < 256) →
    Keeps y.entries.toNat (y.entries.toNat + 2048) m (createGates y m l)
  | [], m, _ => Keeps.refl _ _ m
  | n :: l, m, hl => by
    have hn : n < 256 := hl n List.mem_cons_self
    have hnat : (BitVec.ofNat 8 n).toNat = n := by rw [BitVec.toNat_ofNat]; omega
    exact ((keeps_createGate (p := y.entries) (n := BitVec.ofNat 8 n) (by omega)).mono (by omega) (by omega)).trans
      (keeps_createGates hfit fun k hk => hl k (List.mem_cons_of_mem n hk))

/-- Segment registers loaded with selectors of the two segments. -/
theorem loadSegments_flat : ∀ (l : List (Access × Sreg × BitVec 16)) {s : TableState}, Flat s.gdtr s.cpu.mem →
    (∀ x ∈ l, x.2.2 = 0x08 ∧ x.1 ≠ .write ∨ x.2.2 = 0x10 ∧ x.1 ≠ .fetch) →
    ∃ t, l.foldlM (fun s x => loadSegment s x.1 x.2.1 x.2.2) s = some t ∧ t.gdtr = s.gdtr ∧ t.cpu.mem = s.cpu.mem ∧
      t.pics = s.pics ∧ t.cpu.sreg = l.foldl (fun f x z => if z = x.2.1 then x.2.2 else f z) s.cpu.sreg
  | [], s, _, _ => ⟨s, rfl, rfl, rfl, rfl, rfl⟩
  | x :: l, s, h, hl => by
    have hx : loadSegment s x.1 x.2.1 x.2.2 = some { s with cpu := s.cpu.setSreg x.2.1 x.2.2 } := by
      unfold loadSegment
      rw [h.reach, if_pos (hl x List.mem_cons_self)]
      rfl
    obtain ⟨t, ht, hsame⟩ := loadSegments_flat l (s := { s with cpu := s.cpu.setSreg x.2.1 x.2.2 }) h
      fun z hz => hl z (List.mem_cons_of_mem x hz)
    refine ⟨t, ?_, hsame⟩
    rw [List.foldlM_cons, hx]
    exact ht

/-- **`gdt_load_and_set`** loads every segment register, with the two segments in place. -/
theorem gdtLoadAndSet_flat {s : TableState} (h : Flat (.at s.cpu.mem p) s.cpu.mem) :
    ∃ t, gdtLoadAndSet s p = some t ∧ t.gdtr = .at s.cpu.mem p ∧ t.cpu.mem = s.cpu.mem ∧ t.pics = s.pics ∧
      ∀ x, t.cpu.sreg x = if x = .cs then 0x08 else 0x10 := by
  obtain ⟨t, ht, hg, hm, hp, hs⟩ := loadSegments_flat gdtLoads
    (s := { s with cpu := s.cpu.setReg .eax (p &&& 0xFFFF0000 ||| 0x10), gdtr := .at s.cpu.mem p }) h (by decide)
  refine ⟨t, ht, hg, hm, hp, fun x => ?_⟩
  rw [hs]
  cases x <;> rfl

/-- **`InitGDT`**, for any symbols that do not overlap and any memory. -/
theorem initGDT_flat (hy : y.Apart) (s : TableState) :
    ∃ t, initGDT y s = some t ∧ Flat t.gdtr t.cpu.mem ∧ t.gdtr.base = y.gdt_entries ∧ t.pics = s.pics ∧
      ∀ x, t.cpu.sreg x = if x = .cs then 0x08 else 0x10 := by
  obtain ⟨hfits, hap⟩ := hy
  simp only [TableSymbols.regions, List.mem_cons, List.not_mem_nil, or_false, forall_eq_or_imp, forall_eq,
    List.pairwise_cons, List.Pairwise.nil, and_true, false_imp_iff, implies_true] at hfits hap
  obtain ⟨hg, hp, -, -⟩ := hfits
  have hkeep : ∀ {m : Mem} (num : Nat) {base limit : U32} {access gran : Byte}, num < 3 →
      Keeps (y.gdt_entries.toNat + 8 * num) (y.gdt_entries.toNat + 8 * num + 8) m
        (createEntry y.gdt_entries m num base limit access gran) := fun num _ _ _ _ hnum => keeps_createEntry (by omega)
  have hreg : ∀ {m : Mem} (num : Nat) {base limit : U32} {access gran : Byte}, num < 3 →
      TableReg.at (createEntry y.gdt_entries m num base limit access gran) y.gtdPointer = TableReg.at m y.gtdPointer :=
    fun num _ _ _ _ hnum => tableReg_keeps (hkeep num hnum) hp (by omega)
  obtain ⟨m₁, hm₁⟩ : ∃ m₁, m₁ = createEntry y.gdt_entries (createEntry y.gdt_entries (createEntry y.gdt_entries
    (store (storeHalf s.cpu.mem y.gtdPointer (BitVec.ofNat 16 (sizeofEntry * GDT_NUM_ENTRIES - 1))) (y.gtdPointer + 2)
      y.gdt_entries) 0 0 0 0 0) 1 0 0xFFFFFFFF 0x9A 0xCF) 2 0 0xFFFFFFFF 0x92 0xCF := ⟨_, rfl⟩
  have hat : TableReg.at m₁ y.gtdPointer = ⟨23, y.gdt_entries⟩ := by
    rw [hm₁, hreg 2 (by decide), hreg 1 (by decide), hreg 0 (by decide), (tableReg_stored _ _ _ hp).1]
    rfl
  have hflat : Flat (.at m₁ y.gtdPointer) m₁ := by
    rw [hat]
    refine ⟨rfl, ?_, ?_⟩
    · show Segment.at m₁ (entryAt y.gdt_entries 1) = _
      rw [hm₁, segment_keeps (hkeep 2 (by decide)) (by omega) (by omega), segment_createEntry]
      rfl
    · show Segment.at m₁ (entryAt y.gdt_entries 2) = _
      rw [hm₁, segment_createEntry]
      rfl
  obtain ⟨t, ht, htg, htm, htp, hts⟩ := gdtLoadAndSet_flat (s := { s with cpu := { s.cpu with mem := m₁ } }) hflat
  refine ⟨t, ?_, ?_, ?_, htp, hts⟩
  · rw [← ht, hm₁]
    rfl
  · rw [htg, htm]
    exact hflat
  · rw [htg]
    exact congrArg TableReg.base hat

/-- Another memory has the same tables. -/
def TableSymbols.Kept (y : TableSymbols) (m m' : Mem) : Prop :=
  ∀ r ∈ y.regions, ∀ x : U32, r.1 ≤ x.toNat → x.toNat < r.1 + r.2 → m' x = m x

/-- **`Init_IDT`** leaves gates for the vectors below 48, and the rest of the table empty. -/
theorem initIDT_gates (hy : y.Apart) (s : TableState) : (initIDT y s).idtr = ⟨2047, y.entries⟩ ∧
    (∀ i, i < 256 → Gate.at (initIDT y s).cpu.mem (entryAt y.entries i) =
      if i < 48 then ⟨y.stub i, 0x08, 0x8E⟩ else ⟨0, 0, 0⟩) ∧
    ∀ num, num < 3 → Segment.at (initIDT y s).cpu.mem (entryAt y.gdt_entries num) =
      Segment.at s.cpu.mem (entryAt y.gdt_entries num) := by
  obtain ⟨hfits, hap⟩ := hy
  simp only [TableSymbols.regions, List.mem_cons, List.not_mem_nil, or_false, forall_eq_or_imp, forall_eq,
    List.pairwise_cons, List.Pairwise.nil, and_true, false_imp_iff, implies_true] at hfits hap
  obtain ⟨hg, -, he, hp⟩ := hfits
  obtain ⟨m₀, h₀⟩ : ∃ m₀, m₀ = fill s.cpu.mem y.entries 0 (sizeofGate * IDT_NUM_ENTRIES) := ⟨_, rfl⟩
  obtain ⟨m₁, h₁⟩ : ∃ m₁, m₁ = store (storeHalf m₀ y.idtPointer (BitVec.ofNat 16 (IDT_NUM_ENTRIES * sizeofGate - 1)))
    (y.idtPointer + 2) y.entries := ⟨_, rfl⟩
  have hk₀ : Keeps y.entries.toNat (y.entries.toNat + 2048) s.cpu.mem m₀ := h₀ ▸ keeps_fill _ _ _ _ he
  obtain ⟨hreg, hk₁⟩ := tableReg_stored m₀ (BitVec.ofNat 16 (IDT_NUM_ENTRIES * sizeofGate - 1)) y.entries hp
  rw [← h₁] at hreg hk₁
  have hl₂ : ∀ n ∈ List.range 32, n < 256 := fun n hn => (List.mem_range.1 hn).trans (by decide)
  have hl₃ : ∀ n ∈ List.range' 32 16, n < 256 := fun n hn => (List.mem_range'_1.1 hn).2.trans (by decide)
  have hk₂ := keeps_createGates (m := m₁) he hl₂
  have hk₃ := keeps_createGates (m := createGates y m₁ (List.range 32)) he hl₃
  have hmem : (initIDT y s).cpu.mem = createGates y (createGates y m₁ (List.range 32)) (List.range' 32 16) := by
    rw [h₁, h₀]
    rfl
  refine ⟨?_, fun i hi => ?_, fun num hnum => ?_⟩
  · show TableReg.at (createGates y _ (List.range 32)) y.idtPointer = _
    rw [← h₀, ← h₁, tableReg_keeps hk₂ hp (by omega), hreg]
    rfl
  · have hzero : Gate.at m₁ (entryAt y.entries i) = ⟨0, 0, 0⟩ := by
      rw [gate_keeps hk₁ (by omega) (by omega), h₀]
      refine Gate.at_zero fun x hx => if_pos ?_
      have hx' : (x - y.entries).toNat = 8 * i + (x - entryAt y.entries i).toNat := by
        rw [BitVec.toNat_sub, toNat_entryAt (by omega)] at hx
        rw [BitVec.toNat_sub, BitVec.toNat_sub, toNat_entryAt (by omega)]
        have := x.isLt
        omega
      rw [hx']
      show _ < 8 * 256
      omega
    rw [hmem, gate_createGates he hi hl₃, gate_createGates he hi hl₂, hzero]
    simp only [List.mem_range, List.mem_range'_1]
    split_ifs <;> first | rfl | omega
  · rw [hmem, segment_keeps hk₃ (by omega) (by omega), segment_keeps hk₂ (by omega) (by omega),
      segment_keeps hk₁ (by omega) (by omega), segment_keeps hk₀ (by omega) (by omega)]

/-- **An interrupt through a gate of `CreateGate`** is `interrupt`. -/
theorem deliver_interrupt {gdtr idtr : TableReg} {c : Cpu} {n : Nat}
    (hgate : idtr.gate c.mem n = some ⟨base, 0x08, 0x8E⟩) (hflat : Flat gdtr c.mem) (tss : Tss) (error : U32) :
    deliver gdtr idtr tss n error c = some (interrupt tss base n error c) := by
  have hlast : base.toNat ≤ codeSegment.last := Nat.le_of_lt_succ base.isLt
  have hrpl : 0 < (rpl (c.sreg .cs)).toNat ↔ ¬ rpl (c.sreg .cs) = 0 := by
    rw [Nat.pos_iff_ne_zero, ne_eq, ← BitVec.toNat_inj]
    rfl
  have hindex : (0x08 : BitVec 16).toNat / 4 = 2 := rfl
  unfold deliver
  rw [hgate, Option.bind_eq_bind, Option.bind_some, hflat.segment, if_pos hindex, Option.bind_eq_bind,
    Option.bind_some, if_pos ⟨by decide, by decide, by decide, by decide, Nat.zero_le _, hlast⟩]
  unfold enterGate interrupt
  rw [show codeSegment.dpl = 0 from by decide]
  simp only [hrpl, ite_not]
  rfl

/-- The tables of the two initialisations, in a memory. -/
structure Tables (y : TableSymbols) (gdtr idtr : TableReg) (m : Mem) : Prop where
  base : gdtr.base = y.gdt_entries
  flat : Flat gdtr m
  idtr : idtr = ⟨2047, y.entries⟩
  gates : ∀ i, i < 256 → Gate.at m (entryAt y.entries i) = if i < 48 then ⟨y.stub i, 0x08, 0x8E⟩ else ⟨0, 0, 0⟩

theorem initialised (hy : y.Apart) (s : TableState) : ∃ t, (initGDT y s).map (initIDT y) = some t ∧
    Tables y t.gdtr t.idtr t.cpu.mem ∧ t.pics = s.pics.outs remapPIC ∧
      ∀ x, t.cpu.sreg x = if x = .cs then 0x08 else 0x10 := by
  obtain ⟨u, hu, hflat, hbase, hpics, hsreg⟩ := initGDT_flat hy s
  obtain ⟨hidtr, hgates, hsegs⟩ := initIDT_gates hy u
  have hflat' : Flat u.gdtr (initIDT y u).cpu.mem := by
    refine ⟨hflat.limit, ?_, ?_⟩
    · rw [hbase, hsegs 1 (by decide), ← hbase]
      exact hflat.code
    · rw [hbase, hsegs 2 (by decide), ← hbase]
      exact hflat.data
  refine ⟨initIDT y u, by rw [hu]; rfl, ⟨hbase, hflat', hidtr, hgates⟩, ?_, hsreg⟩
  rw [← hpics]
  rfl

theorem entry_kept {m m' : Mem} {size : Nat} (hfit : p.toNat + size ≤ 2 ^ 32)
    (hk : ∀ x : U32, p.toNat ≤ x.toNat → x.toNat < p.toNat + size → m' x = m x) (n : Nat) (hn : 8 * n + 8 ≤ size)
    (x : U32) (hx : (x - entryAt p n).toNat < 8) : m' x = m x := by
  rw [BitVec.toNat_sub, toNat_entryAt (by omega)] at hx
  have := x.isLt
  exact hk x (by omega) (by omega)

/-- The tables stay what they are, in a memory that keeps them. -/
theorem Tables.kept {gdtr idtr : TableReg} (h : Tables y gdtr idtr m) (hy : y.Apart) (hk : y.Kept m m') :
    Tables y gdtr idtr m' := by
  have hgdt := entry_kept (hy.fits _ List.mem_cons_self) (hk _ List.mem_cons_self)
  have hidt := entry_kept (hy.fits (y.entries.toNat, 2048) (by simp [TableSymbols.regions]))
    (hk (y.entries.toNat, 2048) (by simp [TableSymbols.regions]))
  rw [← h.base] at hgdt
  refine ⟨h.base, ⟨h.flat.limit, ?_, ?_⟩, h.idtr, fun i hi => ?_⟩
  · rw [← h.flat.code]
    exact Segment.at_congr (hgdt 1 (Nat.le_of_ble_eq_true rfl))
  · rw [← h.flat.data]
    exact Segment.at_congr (hgdt 2 (Nat.le_of_ble_eq_true rfl))
  · rw [← h.gates i hi]
    exact Gate.at_congr (hidt i (by omega))

theorem Tables.gate {gdtr idtr : TableReg} (h : Tables y gdtr idtr m) (hi : i < 256) :
    idtr.gate m i = if i < 48 then some ⟨y.stub i, 0x08, 0x8E⟩ else none := by
  have hlim : idtr.limit.toNat = 2047 := by rw [h.idtr]; rfl
  have hg : Gate.at m (idtr.base + BitVec.ofNat 32 (8 * i)) = if i < 48 then ⟨y.stub i, 0x08, 0x8E⟩ else ⟨0, 0, 0⟩ := by
    rw [h.idtr]
    exact h.gates i hi
  unfold TableReg.gate
  rw [hlim, if_neg (by omega), hg]
  split
  · have h8E : (0x8E : Byte).getLsbD 7 = true ∧ (0x8E : Byte) &&& 0x1F = 0x0E := by decide
    exact if_pos h8E
  · exact if_neg (by decide)

/-- **Delivery**, by the tables. -/
theorem Tables.deliver {gdtr idtr : TableReg} {c : Cpu} (h : Tables y gdtr idtr c.mem) (hi : i < 256) (tss : Tss)
    (error : U32) : deliver gdtr idtr tss i error c =
      if i < 48 then some (interrupt tss (y.stub i) i error c) else none := by
  have hgate := h.gate hi
  by_cases h48 : i < 48
  · rw [if_pos h48] at hgate ⊢
    exact deliver_interrupt hgate h.flat tss error
  · rw [if_neg h48] at hgate ⊢
    unfold Loris.deliver
    rw [hgate]
    rfl

/-- Symbols as a linker places them. -/
def linked : TableSymbols := ⟨0x105000, 0x105020, 0x106000, 0x105040, fun n => 0x100000 + BitVec.ofNat 32 (16 * n)⟩

theorem linked_apart : linked.Apart := ⟨by decide, by decide⟩

/-- What the boot loader leaves. -/
def loaded : TableState := ⟨kernelCpu, ⟨0, 0⟩, ⟨0, 0⟩, Board.powerOn⟩

theorem TableSymbols.Kept.refl (y : TableSymbols) (m : Mem) : y.Kept m m := fun _ _ _ _ _ => rfl

/-- **Flat segments**: behind `InitGDT` and `Init_IDT`, for as long as the tables stay in memory, an access has the
offset as its linear address through a selector that is loaded, unless it writes code or fetches data; through any other
selector it is a fault. -/
theorem flat_segments (hy : y.Apart) (s : TableState) : ∃ t, (initGDT y s).map (initIDT y) = some t ∧
    (∀ x, t.cpu.sreg x = if x = .cs then 0x08 else 0x10) ∧ ∀ m, y.Kept t.cpu.mem m → ∀ a sel offset,
      t.gdtr.reach m a sel offset =
        if sel = 0x08 ∧ a ≠ .write ∨ sel = 0x10 ∧ a ≠ .fetch then some offset else none := by
  obtain ⟨t, ht, htables, -, hsreg⟩ := initialised hy s
  exact ⟨t, ht, hsreg, fun m hm a sel offset => (htables.kept hy hm).flat.reach a sel offset⟩

theorem flat_segments_linked : ∃ t, (initGDT linked loaded).map (initIDT linked) = some t ∧
    ∀ offset, t.gdtr.reach t.cpu.mem .write 0x10 offset = some offset := by
  obtain ⟨t, ht, -, hreach⟩ := flat_segments linked_apart loaded
  exact ⟨t, ht, fun offset => (hreach t.cpu.mem (.refl _ _) .write 0x10 offset).trans (if_pos (by decide))⟩

/-- **Delivery**: behind `InitGDT` and `Init_IDT`, for as long as the tables stay in memory, an interrupt comes to the
stub of its vector when that is below 48, from any privilege level, and else is a fault. -/
theorem delivered (hy : y.Apart) (s : TableState) : ∃ t, (initGDT y s).map (initIDT y) = some t ∧
    ∀ c : Cpu, y.Kept t.cpu.mem c.mem → ∀ tss error n, n < 256 → deliver t.gdtr t.idtr tss n error c =
      if n < 48 then some (interrupt tss (y.stub n) n error c) else none := by
  obtain ⟨t, ht, htables, -⟩ := initialised hy s
  exact ⟨t, ht, fun c hc tss error n hn => (htables.kept hy hc).deliver hn tss error⟩

theorem delivered_linked : ∃ t, (initGDT linked loaded).map (initIDT linked) = some t ∧
    deliver t.gdtr t.idtr ⟨0, 0⟩ 32 0 t.cpu = some (interrupt ⟨0, 0⟩ 0x100200 32 0 t.cpu) := by
  obtain ⟨t, ht, hdeliver⟩ := delivered linked_apart loaded
  exact ⟨t, ht, (hdeliver t.cpu (.refl _ _) ⟨0, 0⟩ 0 32 (by decide)).trans (if_pos (by decide))⟩

/-- **The structure at the call** of a handler, for every vector but 17. -/
theorem enter_saved (tss : Tss) (base : U32) (n : Nat) (error : U32) (c : Cpu) (h17 : n ≠ 17) :
    ∃ c', (interrupt tss base n error c).execAll id (stub n ++ commonStub) = some c' ∧
      (Registers.at c'.mem (argument c')).int_no = BitVec.ofNat 32 n := by
  obtain ⟨a, ha, hia⟩ := (interrupted_interrupt tss base n error c).stub h17
  obtain ⟨b, hb, hstack, -⟩ := hia.commonStub
  refine ⟨b, by rw [execAll_append, ha, Option.bind_some, hb], ?_⟩
  rw [show argument b = b.reg .esp + 4 from hstack.top]
  exact Words.get hstack.2 12 rfl

/-- Requests on the lines of a list, and on no other. -/
theorem serving_raises : ∀ (lines : List Nat) {p : Pic8259.Pair}, Board.Serving p →
    (∀ line ∈ lines, Pic8259.Pair.IsLine line) → Board.Serving (lines.foldl Pic8259.Pair.raise p) ∧
      ∀ j, (lines.foldl Pic8259.Pair.raise p).latched j = (p.latched j || decide (j ∈ lines))
  | [], p, h, _ => ⟨h, fun j => by simp⟩
  | line :: lines, p, h, hl => by
    obtain ⟨hserving, hlatched⟩ := serving_raises lines (h.raise line) fun k hk => hl k (List.mem_cons_of_mem line hk)
    refine ⟨hserving, fun j => ?_⟩
    rw [List.foldl_cons, hlatched, Pic8259.Pair.latched_raise p (hl line List.mem_cons_self).1 j, Bool.or_assoc]
    simp only [List.mem_cons, Bool.decide_or]

/-- **From a device to `irq_handler`**: what the controllers pass on, behind the initialisations and any requests, comes
to the handler as the interrupt of the first line in the order of priority, with that line's place in `irq_routines`. -/
theorem irq_entry (hy : y.Apart) (s : TableState) (hm : s.pics.master.isr = 0) (hs : s.pics.slave.isr = 0) :
    ∃ t, (initGDT y s).map (initIDT y) = some t ∧ ∀ (lines : List Nat) (c : Cpu) (tss : Tss), lines ≠ [] →
      (∀ line ∈ lines, Pic8259.Pair.IsLine line) → y.Kept t.cpu.mem c.mem → ∃ v q c' line,
        (lines.foldl Pic8259.Pair.raise t.pics).inta = some (v, q) ∧
        (deliver t.gdtr t.idtr tss v.toNat 0 c).bind (·.execAll id (stub v.toNat ++ commonStub)) = some c' ∧
        ((Registers.at c'.mem (argument c')).int_no - 32).toNat = line ∧ line ∈ lines ∧
        ∀ j ∈ lines, Pic8259.Pair.rank line ≤ Pic8259.Pair.rank j := by
  obtain ⟨t, ht, htables, hpics, -⟩ := initialised hy s
  refine ⟨t, ht, fun lines c tss hne hlines hc => ?_⟩
  obtain ⟨hserving, hlatched⟩ := serving_raises lines (p := t.pics) (hpics ▸ Board.serving_remapPIC hm hs) hlines
  have hmem : ∀ j, (lines.foldl Pic8259.Pair.raise t.pics).latched j = true ↔ j ∈ lines := fun j => by
    rw [hlatched, hpics, Board.latched_remapPIC]
    simp
  obtain ⟨j, hj⟩ := List.exists_mem_of_ne_nil lines hne
  obtain ⟨line, hf⟩ := hserving.idle.exists_first (hlines j hj) ((hmem j).2 hj)
  have hl16 := hf.isLine.1
  have hvec : ((lines.foldl Pic8259.Pair.raise t.pics).vector line).toNat = 32 + line := by
    have := congrArg BitVec.toNat (hserving.vector hl16)
    rw [Board.toNat_irqOf hl16, BitVec.toNat_setWidth, Nat.mod_eq_of_lt (by omega)] at this
    exact this
  obtain ⟨c', hc', hint⟩ := enter_saved tss (y.stub (32 + line)) (32 + line) 0 c (by omega)
  refine ⟨_, _, c', line, hserving.idle.inta_first hf, ?_, ?_, (hmem line).1 hf.latched,
    fun j hj => hf.least j (hlines j hj) ((hmem j).2 hj)⟩
  · rw [hvec, (htables.kept hy hc).deliver (by omega), if_pos (by omega)]
    exact hc'
  · rw [hint, BitVec.toNat_sub, BitVec.toNat_ofNat]
    show (2 ^ 32 - 32 + (32 + line) % 2 ^ 32) % 2 ^ 32 = line
    omega

theorem irq_entry_linked : ∃ t, (initGDT linked loaded).map (initIDT linked) = some t ∧ ∃ v q c' line,
    ([8, 1].foldl Pic8259.Pair.raise t.pics).inta = some (v, q) ∧
    (deliver t.gdtr t.idtr ⟨0, 0⟩ v.toNat 0 t.cpu).bind (·.execAll id (stub v.toNat ++ commonStub)) = some c' ∧
    ((Registers.at c'.mem (argument c')).int_no - 32).toNat = line ∧ line ∈ [8, 1] ∧
    ∀ j ∈ [8, 1], Pic8259.Pair.rank line ≤ Pic8259.Pair.rank j := by
  obtain ⟨t, ht, hentry⟩ := irq_entry linked_apart loaded rfl rfl
  have hlines : ∀ line ∈ [8, 1], Pic8259.Pair.IsLine line := by
    intro line hl
    rcases List.mem_pair.1 hl with rfl | rfl
    · exact ⟨by decide, by decide⟩
    · exact ⟨by decide, by decide⟩
  exact ⟨t, ht, hentry [8, 1] t.cpu ⟨0, 0⟩ (by decide) hlines (.refl _ _)⟩

end Loris
