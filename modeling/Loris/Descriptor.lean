import Loris.ByteMem
/-!
# Descriptor — the descriptor tables of a 32-bit x86 processor

Segment descriptors and gates as the processor reads them, eight bytes each, and the tables that GDTR and IDTR are
about.  An access through a selector has a linear address, or is a fault (`reach`).  Tasks, call gates, conforming
segments and local tables are left out: what needs one is a fault here.
-/
namespace Descriptor

open ByteMem

/-- What a segment descriptor says. -/
structure Segment where
  base : U32
  limit : BitVec 20
  access : Byte
  flags : BitVec 4

/-- An interrupt gate or trap gate. -/
structure Gate where
  offset : U32
  selector : BitVec 16
  attributes : Byte

/-- What `lgdt` and `lidt` read. -/
structure TableReg where
  limit : BitVec 16
  base : U32

def Segment.at (m : Mem) (e : U32) : Segment where
  base := BitVec.ofNat 32 ((loadHalf m (e + 2)).toNat + 0x10000 * (m (e + 4)).toNat + 0x1000000 * (m (e + 7)).toNat)
  limit := BitVec.ofNat 20 ((loadHalf m e).toNat + 0x10000 * (m (e + 6)).toNat)
  access := m (e + 5)
  flags := BitVec.ofNat 4 ((m (e + 6)).toNat / 16)

def Gate.at (m : Mem) (e : U32) : Gate where
  offset := BitVec.ofNat 32 ((loadHalf m e).toNat + 0x10000 * (loadHalf m (e + 6)).toNat)
  selector := loadHalf m (e + 2)
  attributes := m (e + 5)

def TableReg.at (m : Mem) (p : U32) : TableReg := ⟨loadHalf m p, load m (p + 2)⟩

/-- What is done with a segment. -/
inductive Access where
  | fetch | read | write
  deriving DecidableEq

namespace Segment

def present (s : Segment) : Bool := s.access.getLsbD 7
def dpl (s : Segment) : Nat := s.access.toNat / 32 % 4
/-- A segment of code or data, not of the system. -/
def ordinary (s : Segment) : Bool := s.access.getLsbD 4
def code (s : Segment) : Bool := s.access.getLsbD 3
/-- Of code: conforming.  Of data: the limit is the lower end. -/
def other (s : Segment) : Bool := s.access.getLsbD 2
/-- Of code: it can be read.  Of data: it can be written. -/
def more (s : Segment) : Bool := s.access.getLsbD 1

/-- The limit in bytes, with the granularity. -/
def last (s : Segment) : Nat := if s.flags.getLsbD 3 then 0x1000 * s.limit.toNat + 0xFFF else s.limit.toNat

def permits (s : Segment) : Access → Bool
  | .fetch => s.code
  | .read => !s.code || s.more
  | .write => !s.code && s.more

end Segment

namespace TableReg

variable (r : TableReg) (m : Mem)

/-- The descriptor that a selector names.  Bit 2 of the selector is for a local table. -/
def segment (sel : BitVec 16) : Option Segment :=
  if sel.toNat / 8 = 0 ∨ sel.toNat / 4 % 2 = 1 ∨ r.limit.toNat < 8 * (sel.toNat / 8) + 7 then none
  else some (.at m (r.base + BitVec.ofNat 32 (8 * (sel.toNat / 8))))

/-- The linear address of an offset, at privilege level 0. -/
def reach (a : Access) (sel : BitVec 16) (offset : U32) : Option U32 :=
  (r.segment m sel).bind fun s =>
    if s.present ∧ s.ordinary ∧ ¬ s.other ∧ s.permits a ∧ sel.toNat % 4 ≤ s.dpl ∧ (s.code → s.dpl = 0) ∧
      offset.toNat ≤ s.last then some (s.base + offset) else none

/-- The gate of a vector, if it is a present 32-bit interrupt gate. -/
def gate (v : Nat) : Option Gate :=
  if r.limit.toNat < 8 * v + 7 then none
  else
    let g := Gate.at m (r.base + BitVec.ofNat 32 (8 * v))
    if g.attributes.getLsbD 7 ∧ g.attributes &&& 0x1F = 0x0E then some g else none

end TableReg

/-! ## Fields side by side -/

variable {m m' : Mem} {e a k : U32}

theorem storeHalf_apply_of_ge (v : BitVec 16) (h : 2 ≤ (k - a).toNat) : storeHalf m a v k = m k := by
  unfold storeHalf
  rw [if_neg (Nat.not_lt.2 h)]

theorem loadHalf_storeHalf_of_ge (v : BitVec 16) (h : 2 ≤ (k - a).toNat) (h' : 2 ≤ (k + 1 - a).toNat) :
    loadHalf (storeHalf m a v) k = loadHalf m k := by
  unfold loadHalf
  rw [storeHalf_apply_of_ge v h, storeHalf_apply_of_ge v h']

theorem loadHalf_storeByte_of_ne (b : Byte) (h : k ≠ a) (h' : k + 1 ≠ a) :
    loadHalf (storeByte m a b) k = loadHalf m k := by
  unfold loadHalf
  rw [storeByte_apply_of_ne m b h, storeByte_apply_of_ne m b h']

theorem loadHalf_congr (h : ∀ x, (x - e).toNat < 8 → m' x = m x) (hk : k.toNat < 7) :
    loadHalf m' (e + k) = loadHalf m (e + k) := by
  have hk1 : (k + 1).toNat < 8 := by
    rw [BitVec.toNat_add]
    exact Nat.lt_of_le_of_lt (Nat.mod_le _ _) (Nat.succ_lt_succ hk)
  unfold loadHalf
  rw [h (e + k) (by rw [add_sub_self]; omega), BitVec.add_assoc, h (e + (k + 1)) (by rw [add_sub_self]; exact hk1)]

theorem Gate.at_congr (h : ∀ x, (x - e).toNat < 8 → m' x = m x) : Gate.at m' e = Gate.at m e := by
  have h0 : loadHalf m' e = loadHalf m e := by simpa using loadHalf_congr (k := 0) h (by decide)
  unfold Gate.at
  rw [h0, loadHalf_congr (k := 6) h (by decide), loadHalf_congr (k := 2) h (by decide),
    h (e + 5) (by rw [add_sub_self]; decide)]

theorem Gate.at_zero (h : ∀ x, (x - e).toNat < 8 → m x = 0) : Gate.at m e = ⟨0, 0, 0⟩ :=
  Gate.at_congr (m := fun _ => 0) h

theorem Segment.at_congr (h : ∀ x, (x - e).toNat < 8 → m' x = m x) : Segment.at m' e = Segment.at m e := by
  have h0 : loadHalf m' e = loadHalf m e := by simpa using loadHalf_congr (k := 0) h (by decide)
  unfold Segment.at
  rw [h0, loadHalf_congr (k := 2) h (by decide), h (e + 4) (by rw [add_sub_self]; decide),
    h (e + 5) (by rw [add_sub_self]; decide), h (e + 6) (by rw [add_sub_self]; decide),
    h (e + 7) (by rw [add_sub_self]; decide)]

/-- **A segment of the whole address space**, at privilege level 0: the offset is the linear address. -/
theorem TableReg.reach_whole {r : TableReg} {acc : Access} {sel : BitVec 16} {offset : U32} {s : Segment}
    (hs : r.segment m sel = some s) (hp : s.present ∧ s.ordinary ∧ ¬ s.other) (hbase : s.base = 0) (hdpl : s.dpl = 0)
    (hlast : s.last = 0xFFFFFFFF) :
    r.reach m acc sel offset = if s.permits acc ∧ sel.toNat % 4 = 0 then some offset else none := by
  have hoff : offset.toNat ≤ 0xFFFFFFFF := Nat.le_of_lt_succ offset.isLt
  unfold TableReg.reach
  rw [hs, Option.bind_some, hbase, hdpl, hlast, show (0 : U32) + offset = offset from BitVec.zero_add offset]
  refine if_congr ⟨?_, ?_⟩ rfl rfl
  · rintro ⟨-, -, -, hperm, hrpl, -⟩
    exact ⟨hperm, Nat.le_zero.1 hrpl⟩
  · rintro ⟨hperm, hrpl⟩
    exact ⟨hp.1, hp.2.1, hp.2.2, hperm, hrpl.le, fun _ => rfl, hoff⟩

end Descriptor
