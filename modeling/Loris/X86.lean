import Loris.ByteMem
/-!
# X86 — a small 32-bit x86 machine

Registers, a physical memory, and the paging bit of `cr0`: while it is set, an address goes through the translation
`page`.  The operands are those of AT&T syntax; an operand with no `$` and no `%` is the word in memory at that address.
`Words` says which words lie from an address on, and is what a push and a pop are about.

Of the arithmetic flags only ZF is set; the others are left as they are.  There is no virtual-8086 mode.
-/
namespace X86

open ByteMem

inductive Reg where
  | eax | ecx | edx | ebx | esp | ebp | esi | edi
  deriving DecidableEq

inductive Sreg where
  | cs | ss | ds | es | fs | gs
  deriving DecidableEq

structure Cpu where
  reg : Reg → U32
  sreg : Sreg → BitVec 16
  eip : U32
  eflags : U32
  cr0 : U32
  mem : Mem

inductive Operand where
  /-- `$v`. -/
  | imm (v : U32)
  /-- `%r`. -/
  | reg (r : Reg)
  /-- `a`: the word at the address `a`. -/
  | mem (a : U32)
  /-- `disp(%r)`. -/
  | ind (disp : U32) (r : Reg)
  | cr0

/-- The instructions, the source operand before the destination. -/
inductive Op where
  | mov (src dst : Operand)
  | and (src dst : Operand)
  | or (src dst : Operand)
  | add (src dst : Operand)
  | dec (dst : Operand)
  | push (src : Operand)
  | pop (dst : Operand)
  | pushf
  | popf
  | cli
  | pusha
  | popa
  | pushs (s : Sreg)
  | pops (s : Sreg)
  /-- `mov $v, %r`, to the low half of the register. -/
  | movw (v : BitVec 16) (r : Reg)
  /-- `mov %r, %s`, of the low half of the register. -/
  | movs (r : Reg) (s : Sreg)
  | iret

inductive Instr where
  | op (o : Op)
  | jnz (target : Nat)
  | ret

/-- The bits PG, ZF and IF, and the privilege level of a selector. -/
def bitPG : U32 := 0x80000000
def bitPE : U32 := 1
def bitZF : U32 := 0x40
def bitIF : U32 := 0x200
def rpl (s : BitVec 16) : BitVec 16 := s &&& 3

namespace Cpu

-- `page` is the translation that is in effect while paging is on
variable (page : U32 → U32)

/-- The physical address of an address. -/
def phys (c : Cpu) (a : U32) : U32 := if c.cr0 &&& bitPG ≠ 0 then page a else a

def readWord (c : Cpu) (a : U32) : U32 := load (fun x => c.mem (c.phys page x)) a

def writeWord (c : Cpu) (a v : U32) : Cpu :=
  let m := storeByte c.mem (c.phys page a) (byteOf v 0)
  let m := storeByte m (c.phys page (a + 1#32)) (byteOf v 1)
  let m := storeByte m (c.phys page (a + 2#32)) (byteOf v 2)
  { c with mem := storeByte m (c.phys page (a + 3#32)) (byteOf v 3) }

def setReg (c : Cpu) (r : Reg) (v : U32) : Cpu := { c with reg := fun x => if x = r then v else c.reg x }

def setSreg (c : Cpu) (s : Sreg) (v : BitVec 16) : Cpu := { c with sreg := fun x => if x = s then v else c.sreg x }

/-- ZF, after an operation with the result `v`. -/
def setZF (c : Cpu) (v : U32) : Cpu :=
  { c with eflags := if v = 0 then c.eflags ||| bitZF else c.eflags &&& ~~~bitZF }

def get (c : Cpu) : Operand → U32
  | .imm v => v
  | .reg r => c.reg r
  | .mem a => c.readWord page a
  | .ind disp r => c.readWord page (c.reg r + disp)
  | .cr0 => c.cr0

/-- Paging without protection is a fault. -/
def set (c : Cpu) (v : U32) : Operand → Option Cpu
  | .imm _ => none
  | .reg r => some (c.setReg r v)
  | .mem a => some (c.writeWord page a v)
  | .ind disp r => some (c.writeWord page (c.reg r + disp) v)
  | .cr0 => if v &&& bitPG ≠ 0 ∧ v &&& bitPE = 0 then none else some { c with cr0 := v }

def push (c : Cpu) (v : U32) : Cpu := (c.setReg .esp (c.reg .esp - 4)).writeWord page (c.reg .esp - 4) v

/-- The word on top of the stack. -/
def top (c : Cpu) : U32 := c.readWord page (c.reg .esp)

/-- The machine after `n` bytes are taken off the stack. -/
def drop (c : Cpu) (n : U32) : Cpu := c.setReg .esp (c.reg .esp + n)

/-- The operation of an arithmetic instruction. -/
def arith (c : Cpu) (v : U32) (dst : Operand) : Option Cpu := (c.set page v dst).map fun c => c.setZF v

/-- `pushal`; the stack pointer it pushes is the one it found. -/
def pusha (c : Cpu) : Cpu :=
  let esp := c.reg .esp
  let c := ((c.push page (c.reg .eax)).push page (c.reg .ecx)).push page (c.reg .edx)
  let c := (c.push page (c.reg .ebx)).push page esp
  ((c.push page (c.reg .ebp)).push page (c.reg .esi)).push page (c.reg .edi)

/-- A pop to a register. -/
def popReg (c : Cpu) (r : Reg) : Cpu := (c.drop 4).setReg r (c.top page)

/-- `popal`; the stack pointer is skipped. -/
def popa (c : Cpu) : Cpu :=
  let c := ((c.popReg page .edi).popReg page .esi).popReg page .ebp
  ((((c.drop 4).popReg page .ebx).popReg page .edx).popReg page .ecx).popReg page .eax

/-- `iret`; to outer privilege it takes the stack off, too. -/
def iret (c : Cpu) : Cpu :=
  let eip := c.top page
  let cs : BitVec 16 := ((c.drop 4).top page).setWidth 16
  let eflags := ((c.drop 4).drop 4).top page
  let c' := { (((c.drop 4).drop 4).drop 4).setSreg .cs cs with eip := eip, eflags := eflags }
  if rpl (c.sreg .cs) < rpl cs then
    (c'.setReg .esp (c'.top page)).setSreg .ss (((c'.drop 4).top page).setWidth 16)
  else c'

def exec (c : Cpu) : Op → Option Cpu
  | .mov src dst => c.set page (c.get page src) dst
  | .and src dst => c.arith page (c.get page dst &&& c.get page src) dst
  | .or src dst => c.arith page (c.get page dst ||| c.get page src) dst
  | .add src dst => c.arith page (c.get page dst + c.get page src) dst
  | .dec dst => c.arith page (c.get page dst - 1) dst
  | .push src => some (c.push page (c.get page src))
  | .pop dst => (c.drop 4).set page (c.top page) dst
  | .pushf => some (c.push page c.eflags)
  | .popf => some { c.drop 4 with eflags := c.top page }
  | .cli => some { c with eflags := c.eflags &&& ~~~bitIF }
  | .pusha => some (c.pusha page)
  | .popa => some (c.popa page)
  | .pushs s => some (c.push page ((c.sreg s).setWidth 32))
  | .pops s => some ((c.drop 4).setSreg s ((c.top page).setWidth 16))
  | .movw v r => some (c.setReg r (c.reg r &&& 0xFFFF0000 ||| v.setWidth 32))
  | .movs r s => some (c.setSreg s ((c.reg r).setWidth 16))
  | .iret => some (c.iret page)

/-- One instruction after another. -/
def execAll (c : Cpu) : List Op → Option Cpu
  | [] => some c
  | o :: l => (c.exec page o).bind fun c => execAll c l

/-- The code from the instruction `pc` on, up to its `ret`. -/
def runFrom (code : List Instr) : Nat → Nat → Cpu → Option Cpu
  | 0, _, _ => none
  | n + 1, pc, c =>
    match code[pc]? with
    | none => none
    | some (.op o) => (c.exec page o).bind (runFrom code n (pc + 1))
    | some (.jnz target) => runFrom code n (if c.eflags &&& bitZF = 0 then target else pc + 1) c
    | some .ret => some { c.drop 4 with eip := c.top page }

end Cpu

/-! ## Words in memory -/

/-- The words from an address on. -/
def Words (m : Mem) : U32 → List U32 → Prop
  | _, [] => True
  | a, v :: l => load m a = v ∧ Words m (a + 4) l

theorem storeByte_four (m : Mem) (a v : U32) :
    storeByte (storeByte (storeByte (storeByte m a (byteOf v 0)) (a + 1#32) (byteOf v 1)) (a + 2#32) (byteOf v 2))
    (a + 3#32)
      (byteOf v 3) = store m a v := by
  funext x
  have hx : ∀ k : U32, k.toNat < 4 → x = a + k → store m a v x = byteOf v k.toNat := fun k hk he => by
    unfold store
    rw [he, add_sub_self, if_pos hk]
  by_cases h3 : x = a + 3#32
  · rw [hx 3 (by decide) h3, h3, storeByte_same]
    rfl
  rw [storeByte_apply_of_ne _ _ h3]
  by_cases h2 : x = a + 2#32
  · rw [hx 2 (by decide) h2, h2, storeByte_same]
    rfl
  rw [storeByte_apply_of_ne _ _ h2]
  by_cases h1 : x = a + 1#32
  · rw [hx 1 (by decide) h1, h1, storeByte_same]
    rfl
  rw [storeByte_apply_of_ne _ _ h1]
  by_cases h0 : x = a
  · rw [hx 0 (by decide) (h0.trans (BitVec.add_zero a).symm), h0, storeByte_same]
    rfl
  rw [storeByte_apply_of_ne _ _ h0, store_apply_of_ge]
  refine Nat.le_of_not_lt fun hlt => ?_
  have hsum : x = a + BitVec.ofNat 32 (x - a).toNat := by
    rw [BitVec.ofNat_toNat, BitVec.setWidth_eq, BitVec.add_comm, BitVec.sub_add_cancel]
  obtain h | h | h | h : (x - a).toNat = 0 ∨ (x - a).toNat = 1 ∨ (x - a).toNat = 2 ∨ (x - a).toNat = 3 := by omega
  · rw [h] at hsum
    exact h0 (hsum.trans (BitVec.add_zero a))
  · rw [h] at hsum
    exact h1 hsum
  · rw [h] at hsum
    exact h2 hsum
  · rw [h] at hsum
    exact h3 hsum

variable {m m' : Mem} {a v : U32} {l : List U32}

theorem Words.get : ∀ {l : List U32} {a : U32}, Words m a l → ∀ (i : Nat) {v : U32}, l[i]? = some v →
    load m (a + BitVec.ofNat 32 (4 * i)) = v
  | _ :: _, a, ⟨h, _⟩, 0, _, hi => by
    rw [← Option.some.inj hi, ← h]
    exact congrArg (load m) (BitVec.add_zero a)
  | _ :: l, a, ⟨_, h⟩, i + 1, _, hi => by
    have := h.get i hi
    rwa [Nat.mul_succ, Nat.add_comm, BitVec.ofNat_add, ← BitVec.add_assoc]

theorem Words.congr : ∀ {l : List U32} {a : U32}, Words m a l → 4 * l.length ≤ 2 ^ 32 →
    (∀ x : U32, (x - a).toNat < 4 * l.length → m' x = m x) → Words m' a l
  | [], _, _, _, _ => trivial
  | v :: l, a, ⟨h, hl⟩, hlen, hm => by
    rw [List.length_cons] at hlen hm
    refine ⟨(load_congr fun x hx => hm x (by omega)).trans h, hl.congr (by omega) fun x hx => hm x ?_⟩
    have hsub : (x - a).toNat = ((x - (a + 4)).toNat + 4) % 2 ^ 32 := by
      rw [← show (4 : U32).toNat = 4 from rfl, ← BitVec.toNat_add, ← BitVec.sub_sub, BitVec.sub_add_cancel]
    omega

theorem Words.store (h : Words m a l) (hlen : 4 * (l.length + 1) ≤ 2 ^ 32) :
    Words (ByteMem.store m (a - 4) v) (a - 4) (v :: l) := by
  refine ⟨load_store_same .., ?_⟩
  rw [BitVec.sub_add_cancel]
  refine h.congr (by omega) fun x hx => store_apply_of_ge m v ?_
  have hsub : (x - (a - 4)).toNat = ((x - a).toNat + 4) % 2 ^ 32 := by
    rw [← show (4 : U32).toNat = 4 from rfl, ← BitVec.toNat_add]
    congr 1
    simp only [BitVec.sub_eq_add_neg, BitVec.neg_add, BitVec.neg_neg, BitVec.add_assoc]
  omega

/-! ## Memory through a translation -/

namespace Cpu

variable {page : U32 → U32} {c c' : Cpu} {b x : U32}

theorem writeWord_apply_of_ne (h : ∀ k, k < 4 → x ≠ c.phys page (a + BitVec.ofNat 32 k)) :
    (c.writeWord page a v).mem x = c.mem x := by
  have h0 := h 0 (by decide)
  rw [show a + BitVec.ofNat 32 0 = a from BitVec.add_zero a] at h0
  unfold writeWord
  simp only
  rw [storeByte_apply_of_ne _ _ (h 3 (by decide)), storeByte_apply_of_ne _ _ (h 2 (by decide)),
    storeByte_apply_of_ne _ _ (h 1 (by decide)), storeByte_apply_of_ne _ _ h0]

/-- The word that was written, when no two of its bytes are one. -/
theorem readWord_writeWord (h : ∀ i j, i < 4 → j < 4 → i ≠ j →
    c.phys page (a + BitVec.ofNat 32 i) ≠ c.phys page (a + BitVec.ofNat 32 j)) :
    (c.writeWord page a v).readWord page a = v := by
  have h0 : ∀ j, 0 < j → j < 4 → c.phys page a ≠ c.phys page (a + BitVec.ofNat 32 j) := fun j hj hj4 => by
    have := h 0 j (by decide) hj4 (Nat.ne_of_lt hj)
    rwa [show a + BitVec.ofNat 32 0 = a from BitVec.add_zero a] at this
  have h1 := h 1 2 (by decide) (by decide) (by decide)
  have h2 := h 1 3 (by decide) (by decide) (by decide)
  have h3 := h 2 3 (by decide) (by decide) (by decide)
  refine Eq.trans (load_congr (m := ByteMem.store (fun _ => 0) a v) fun y hy => ?_) (load_store_same _ a v)
  have hsum : y = a + BitVec.ofNat 32 (y - a).toNat := by
    rw [BitVec.ofNat_toNat, BitVec.setWidth_eq, BitVec.add_comm, BitVec.sub_add_cancel]
  have hphys : (c.writeWord page a v).phys page = c.phys page := rfl
  unfold ByteMem.store
  rw [if_pos hy, hphys]
  unfold writeWord
  simp only
  obtain hk | hk | hk | hk : (y - a).toNat = 0 ∨ (y - a).toNat = 1 ∨ (y - a).toNat = 2 ∨ (y - a).toNat = 3 := by omega
  · rw [hk] at hsum
    rw [hk, hsum, show a + BitVec.ofNat 32 0 = a from BitVec.add_zero a,
      storeByte_apply_of_ne _ _ (h0 3 (by decide) (by decide)),
      storeByte_apply_of_ne _ _ (h0 2 (by decide) (by decide)),
      storeByte_apply_of_ne _ _ (h0 1 (by decide) (by decide)), storeByte_same]
  · rw [hk] at hsum
    rw [hk, hsum, storeByte_apply_of_ne _ _ h2, storeByte_apply_of_ne _ _ h1]
    exact storeByte_same ..
  · rw [hk] at hsum
    rw [hk, hsum, storeByte_apply_of_ne _ _ h3]
    exact storeByte_same ..
  · rw [hk] at hsum
    rw [hk, hsum]
    exact storeByte_same ..

theorem readWord_congr (hcr0 : c'.cr0 = c.cr0)
    (h : ∀ k, k < 4 → c'.mem (c.phys page (a + BitVec.ofNat 32 k)) = c.mem (c.phys page (a + BitVec.ofNat 32 k))) :
    c'.readWord page a = c.readWord page a := by
  have hphys : c'.phys page = c.phys page := funext fun y => by
    unfold phys
    rw [hcr0]
  unfold readWord
  rw [hphys]
  refine load_congr fun y hy => ?_
  have hy' := h (y - a).toNat hy
  rwa [BitVec.ofNat_toNat, BitVec.setWidth_eq, BitVec.add_comm, BitVec.sub_add_cancel] at hy'

/-! A push writes the word below the top. -/

theorem push_apply_of_ne (h : ∀ k, k < 4 → x ≠ c.phys page (c.reg .esp - 4 + BitVec.ofNat 32 k)) :
    (c.push page v).mem x = c.mem x :=
  writeWord_apply_of_ne h

theorem readWord_push (h : ∀ i j, i < 4 → j < 4 → i ≠ j → c.phys page (c.reg .esp - 4 + BitVec.ofNat 32 i) ≠
    c.phys page (c.reg .esp - 4 + BitVec.ofNat 32 j)) : (c.push page v).readWord page (c.reg .esp - 4) = v :=
  readWord_writeWord h

/-! Without paging. -/

theorem phys_off (h : c.cr0 &&& bitPG = 0) (y : U32) : c.phys page y = y := by
  unfold phys
  rw [if_neg (not_not.2 h)]

theorem readWord_off (h : c.cr0 &&& bitPG = 0) (y : U32) : c.readWord page y = load c.mem y := by
  unfold readWord
  simp only [phys_off h]

theorem writeWord_off (h : c.cr0 &&& bitPG = 0) (y v : U32) :
    c.writeWord page y v = { c with mem := ByteMem.store c.mem y v } := by
  unfold writeWord
  simp only [phys_off h, storeByte_four]

theorem exec_mov_cr0 {r : Reg} (hr : c.reg r = v) (h : ¬ (v &&& bitPG ≠ 0 ∧ v &&& bitPE = 0)) :
    c.exec page (.mov (.reg r) .cr0) = some { c with cr0 := v } := by
  subst hr
  exact if_neg h

theorem exec_mov_cr0_fault {r : Reg} (h : c.reg r &&& bitPG ≠ 0 ∧ c.reg r &&& bitPE = 0) :
    c.exec page (.mov (.reg r) .cr0) = none :=
  if_pos h

/-! One step of the code. -/

variable {code : List Instr} {n pc : Nat}

theorem runFrom_op {o : Op} (hpc : code[pc]? = some (.op o)) (h : c.exec page o = some c') :
    runFrom page code (n + 1) pc c = runFrom page code n (pc + 1) c' := by
  rw [runFrom, hpc]
  simp only [h, Option.bind_some]

theorem runFrom_fault {o : Op} (hpc : code[pc]? = some (.op o)) (h : c.exec page o = none) :
    runFrom page code (n + 1) pc c = none := by
  rw [runFrom, hpc]
  simp only [h, Option.bind_none]

theorem runFrom_jnz {target : Nat} (hpc : code[pc]? = some (.jnz target)) :
    runFrom page code (n + 1) pc c = runFrom page code n (if c.eflags &&& bitZF = 0 then target else pc + 1) c := by
  rw [runFrom, hpc]

theorem runFrom_ret (hpc : code[pc]? = some .ret) :
    runFrom page code (n + 1) pc c = some { c.drop 4 with eip := c.top page } := by
  rw [runFrom, hpc]

end Cpu

/-! ## The stack, where `page` is the identity -/

namespace Cpu

/-- The words on the stack, the top first. -/
def OnStack (c : Cpu) (l : List U32) : Prop := Words c.mem (c.reg .esp) l

variable {c : Cpu} {r : Reg} {s : Sreg} {n : U32}

@[simp] theorem phys_id (c : Cpu) (a : U32) : c.phys id a = a := ite_self a

@[simp] theorem readWord_id (c : Cpu) (a : U32) : c.readWord id a = load c.mem a := by
  simp only [readWord, phys_id]

@[simp] theorem push_mem (c : Cpu) (v : U32) : (c.push id v).mem = ByteMem.store c.mem (c.reg .esp - 4) v := by
  simp only [push, writeWord, phys_id, setReg]
  exact storeByte_four ..

@[simp] theorem push_reg (c : Cpu) (v : U32) (h : r ≠ .esp) : (c.push id v).reg r = c.reg r := if_neg h

@[simp] theorem push_esp (c : Cpu) (v : U32) : (c.push id v).reg .esp = c.reg .esp - 4 := rfl

@[simp] theorem push_sreg (c : Cpu) (v : U32) : (c.push id v).sreg = c.sreg := rfl

@[simp] theorem setReg_same (c : Cpu) (r : Reg) (v : U32) : (c.setReg r v).reg r = v := if_pos rfl

@[simp] theorem setReg_of_ne (c : Cpu) {q : Reg} (v : U32) (h : q ≠ r) : (c.setReg r v).reg q = c.reg q := if_neg h

@[simp] theorem setSreg_same (c : Cpu) (s : Sreg) (v : BitVec 16) : (c.setSreg s v).sreg s = v := if_pos rfl

@[simp] theorem setSreg_of_ne (c : Cpu) {q : Sreg} (v : BitVec 16) (h : q ≠ s) : (c.setSreg s v).sreg q = c.sreg q :=
  if_neg h

theorem OnStack.push (h : c.OnStack l) (hlen : 4 * (l.length + 1) ≤ 2 ^ 32) : (c.push id v).OnStack (v :: l) := by
  unfold OnStack
  rw [push_mem, push_esp]
  exact Words.store h hlen

theorem OnStack.top (h : c.OnStack (v :: l)) : c.top id = v := by
  unfold Cpu.top
  rw [readWord_id]
  exact h.1

theorem OnStack.drop (h : c.OnStack (v :: l)) : (c.drop 4).OnStack l := h.2

theorem OnStack.setReg (h : c.OnStack l) (hr : r ≠ .esp) : (c.setReg r v).OnStack l := by
  unfold OnStack
  rw [setReg_of_ne c v hr.symm]
  exact h

theorem OnStack.pops (h : c.OnStack (v :: l)) (s : Sreg) : ∃ c', c.exec id (.pops s) = some c' ∧ c'.OnStack l ∧
    c'.reg .esp = c.reg .esp + 4 ∧ c'.sreg s = v.setWidth 16 ∧ ∀ q, q ≠ s → c'.sreg q = c.sreg q := by
  refine ⟨_, rfl, h.2, rfl, ?_, fun q hq => if_neg hq⟩
  rw [h.top, setSreg_same]

theorem OnStack.popReg (h : c.OnStack (v :: l)) (hr : r ≠ .esp) :
    c.popReg id r = (c.drop 4).setReg r v ∧ ((c.drop 4).setReg r v).OnStack l := by
  refine ⟨?_, h.drop.setReg hr⟩
  unfold Cpu.popReg
  rw [h.top]

/-- **`popal`**. -/
theorem OnStack.popa {edi esi ebp skipped ebx edx ecx eax : U32}
    (h : c.OnStack ([edi, esi, ebp, skipped, ebx, edx, ecx, eax] ++ l)) :
    (c.popa id).OnStack l ∧ (c.popa id).sreg = c.sreg ∧ (c.popa id).reg = fun
      | .eax => eax | .ecx => ecx | .edx => edx | .ebx => ebx | .ebp => ebp | .esi => esi | .edi => edi
      | .esp => c.reg .esp + 4 + 4 + 4 + 4 + 4 + 4 + 4 + 4 := by
  have h1 := h.popReg (r := .edi) (by decide)
  have h2 := h1.2.popReg (r := .esi) (by decide)
  have h3 := h2.2.popReg (r := .ebp) (by decide)
  have h4 := h3.2.drop.popReg (r := .ebx) (by decide)
  have h5 := h4.2.popReg (r := .edx) (by decide)
  have h6 := h5.2.popReg (r := .ecx) (by decide)
  have h7 := h6.2.popReg (r := .eax) (by decide)
  unfold Cpu.popa
  simp only [h1.1, h2.1, h3.1, h4.1, h5.1, h6.1, h7.1]
  refine ⟨h7.2, rfl, funext fun r => ?_⟩
  cases r <;> rfl

/-- **`iret`** within one privilege level. -/
theorem OnStack.iret {eip cs eflags : U32} (h : c.OnStack ([eip, cs, eflags] ++ l))
    (hcpl : ¬ rpl (c.sreg .cs) < rpl (cs.setWidth 16)) :
    c.iret id = { (((c.drop 4).drop 4).drop 4).setSreg .cs (cs.setWidth 16) with eip := eip, eflags := eflags } := by
  unfold Cpu.iret
  simp only [h.top, h.drop.top, h.drop.drop.top]
  rw [if_neg hcpl]

/-- **`iret`** to outer privilege. -/
theorem OnStack.iret_outer {eip cs eflags esp ss : U32} (h : c.OnStack ([eip, cs, eflags, esp, ss] ++ l))
    (hcpl : rpl (c.sreg .cs) < rpl (cs.setWidth 16)) :
    c.iret id = (({ (((c.drop 4).drop 4).drop 4).setSreg .cs (cs.setWidth 16) with
      eip := eip, eflags := eflags }).setReg .esp esp).setSreg .ss (ss.setWidth 16) := by
  have h3 : ({ (((c.drop 4).drop 4).drop 4).setSreg .cs (cs.setWidth 16) with
      eip := eip, eflags := eflags } : Cpu).OnStack ([esp, ss] ++ l) := h.drop.drop.drop
  unfold Cpu.iret
  simp only [h.top, h.drop.top, h.drop.drop.top]
  rw [if_pos hcpl, h3.top, h3.drop.top]

/-- **What was pushed since `c`**, down from the stack pointer `esp`: the words `l`, and nothing else changed that is
saved or restored. -/
structure Pushed (c : Cpu) (esp : U32) (c' : Cpu) (l : List U32) : Prop where
  stack : c'.OnStack l
  esp : c'.reg .esp + BitVec.ofNat 32 (4 * l.length) = esp
  reg : ∀ r, r ≠ .esp → c'.reg r = c.reg r
  sreg : ∀ s, s ≠ .cs → s ≠ .ss → c'.sreg s = c.sreg s

variable {c' : Cpu} {esp : U32}

theorem Pushed.push (h : Pushed c esp c' l) (v : U32) (hlen : 4 * (l.length + 1) ≤ 2 ^ 32) :
    Pushed c esp (c'.push id v) (v :: l) := by
  refine ⟨h.stack.push hlen, ?_, fun r hr => (push_reg c' v hr).trans (h.reg r hr), h.sreg⟩
  rw [push_esp, List.length_cons, Nat.mul_succ, Nat.add_comm, BitVec.ofNat_add, ← BitVec.add_assoc]
  exact (congrArg (· + _) (BitVec.sub_add_cancel ..)).trans h.esp

theorem Pushed.pusha (h : Pushed c esp c' l) (hlen : 4 * (l.length + 8) ≤ 2 ^ 32) :
    Pushed c esp (c'.pusha id) ([c.reg .edi, c.reg .esi, c.reg .ebp, c'.reg .esp, c.reg .ebx, c.reg .edx, c.reg .ecx,
      c.reg .eax] ++ l) := by
  have hreg := fun r hr => h.reg r hr
  unfold Cpu.pusha
  simp only [← hreg .edi (by decide), ← hreg .esi (by decide), ← hreg .ebp (by decide), ← hreg .ebx (by decide),
    ← hreg .edx (by decide), ← hreg .ecx (by decide), ← hreg .eax (by decide)]
  exact (((((((h.push _ (by omega)).push _ (by rw [List.length_cons]; omega)).push _ (by
    simp only [List.length_cons]; omega)).push _ (by simp only [List.length_cons]; omega)).push _ (by
    simp only [List.length_cons]; omega)).push _ (by simp only [List.length_cons]; omega)).push _ (by
    simp only [List.length_cons]; omega)).push _ (by simp only [List.length_cons]; omega)

theorem execAll_cons {o : Op} {l : List Op} (h : c.exec id o = some c') : c.execAll id (o :: l) = c'.execAll id l := by
  show (c.exec id o).bind _ = _
  rw [h, Option.bind_some]

theorem execAll_append : ∀ (l l' : List Op) (c : Cpu), c.execAll id (l ++ l') = (c.execAll id l).bind fun c =>
    c.execAll id l'
  | [], _, _ => rfl
  | o :: l, l', c => by
    show (c.exec id o).bind _ = ((c.exec id o).bind _).bind _
    rw [Option.bind_assoc]
    exact congrArg _ (funext fun c => execAll_append l l' c)

end Cpu

end X86
