import Loris.X86
/-!
# InterruptFrame — the stubs of `idt.S` and `struct Registers`

What the processor and a stub push, the last word first, is read by the handlers as a `Registers`.  The fields that
`pushal`, the stub and the processor fill hold what their names say (`entry_frame`); the stubs of `irq_handler` take
everything off again, so an interrupt whose handler leaves the structure alone is not seen by what it interrupts
(`interrupt_frame`).

Memory is as the code addresses it, so the translation of the machine is the identity.
-/
namespace Loris

open ByteMem X86 X86.Cpu

/-- `struct Registers`. -/
structure Registers where
  gs : U32
  fs : U32
  es : U32
  ds : U32
  edi : U32
  esi : U32
  ebp : U32
  esp : U32
  ebx : U32
  edx : U32
  ecx : U32
  eax : U32
  int_no : U32
  err_code : U32
  eip : U32
  cs : U32
  eflags : U32
  useresp : U32
  ss : U32

def sizeofRegisters : Nat := 76

/-- The structure at a pointer, a word a field. -/
def Registers.at (m : Mem) (p : U32) : Registers where
  gs := load m p
  fs := load m (p + 4)
  es := load m (p + 8)
  ds := load m (p + 12)
  edi := load m (p + 16)
  esi := load m (p + 20)
  ebp := load m (p + 24)
  esp := load m (p + 28)
  ebx := load m (p + 32)
  edx := load m (p + 36)
  ecx := load m (p + 40)
  eax := load m (p + 44)
  int_no := load m (p + 48)
  err_code := load m (p + 52)
  eip := load m (p + 56)
  cs := load m (p + 60)
  eflags := load m (p + 64)
  useresp := load m (p + 68)
  ss := load m (p + 72)

/-- The stack that the processor changes to when it comes from outer privilege. -/
structure Tss where
  esp0 : U32
  ss0 : BitVec 16

/-- The exceptions for which the processor pushes an error code. -/
def pushesErrorCode (n : Nat) : Bool := n = 8 ∨ (10 ≤ n ∧ n ≤ 14) ∨ n = 17

/-- **An interrupt** through the gate that `CreateGate(n, base, 0x08, 0x8E)` made, up to the stub at `base`.  The flags
of `c` are those that are pushed: the processor pushes the flags of a fault with RF set, and `c` has it set then. -/
def interrupt (tss : Tss) (base : U32) (n : Nat) (error : U32) (c : Cpu) : Cpu :=
  let inner := if rpl (c.sreg .cs) = 0 then c
    else (((c.setReg .esp tss.esp0).setSreg .ss tss.ss0).push id ((c.sreg .ss).setWidth 32)).push id (c.reg .esp)
  let pushed := ((inner.push id c.eflags).push id ((c.sreg .cs).setWidth 32)).push id c.eip
  let pushed := if pushesErrorCode n then pushed.push id error else pushed
  -- an interrupt gate clears TF, IF, NT, RF and VM
  { pushed.setSreg .cs 0x08 with eip := base, eflags := c.eflags &&& ~~~0x34300 }

/-! ## The stubs -/

/-- `ISR_NOERRCODE`, `ISR_ERRCODE` and `IRQ`. -/
def isrNoErrCode (n : Nat) : List Op := [.push (.imm 0), .push (.imm (BitVec.ofNat 32 n))]
def isrErrCode (n : Nat) : List Op := [.push (.imm (BitVec.ofNat 32 n))]
def irq (n : Nat) : List Op := [.push (.imm 0), .push (.imm (BitVec.ofNat 32 n))]

/-- The macro that makes the stub of a vector. -/
def stub (n : Nat) : List Op :=
  if n = 8 ∨ (10 ≤ n ∧ n ≤ 14) then isrErrCode n else if n < 32 then isrNoErrCode n else irq n

/-- `isr_common_stub` and `irq_common_stub` up to the call of the handler. -/
def commonStub : List Op :=
  [.pusha, .pushs .gs, .pushs .fs, .pushs .es, .pushs .ds,
    .movw 0x10 .eax, .movs .eax .ds, .movs .eax .es, .movs .eax .fs, .movs .eax .gs, .push (.reg .esp)]

/-- The common stubs behind the call. -/
def commonReturn : List Op :=
  [.add (.imm 4) (.reg .esp), .pops .ds, .pops .es, .pops .fs, .pops .gs, .popa, .add (.imm 8) (.reg .esp), .iret]

/-- From the interrupt to the call of the handler, whose argument is on the stack. -/
def enter (tss : Tss) (base : U32) (n : Nat) (error : U32) (c : Cpu) : Option Cpu :=
  (interrupt tss base n error c).execAll id (stub n ++ commonStub)

/-- The structure passed to the handler. -/
def argument (c : Cpu) : U32 := c.top id

/-- `isr_handler` or `irq_handler` returned to its stub, without a change to the structure at `p`.  It may leave
anything in the registers that the stub restores, and in the memory outside the structure. -/
structure Returned (p : U32) (c c' : Cpu) : Prop where
  esp : c'.reg .esp = c.reg .esp
  cs : c'.sreg .cs = c.sreg .cs
  ss : c'.sreg .ss = c.sreg .ss
  kept : ∀ x : U32, (x - p).toNat < sizeofRegisters → c'.mem x = c.mem x

variable {tss : Tss} {base error : U32} {n : Nat} {c c' : Cpu} {l : List U32}

/-! ## Into the handler -/

/-- What the processor pushes below `eip`, from outer privilege only. -/
def outer (c : Cpu) : List U32 := if rpl (c.sreg .cs) = 0 then [] else [c.reg .esp, (c.sreg .ss).setWidth 32]

/-- The stack that an interrupt pushes to. -/
def innerEsp (tss : Tss) (c : Cpu) : U32 := if rpl (c.sreg .cs) = 0 then c.reg .esp else tss.esp0
def innerSs (tss : Tss) (c : Cpu) : BitVec 16 := if rpl (c.sreg .cs) = 0 then c.sreg .ss else tss.ss0

/-- The words from `int_no` on, as the stub of a vector leaves them. -/
def interrupted (n : Nat) (error : U32) (c : Cpu) : List U32 :=
  [BitVec.ofNat 32 n, if pushesErrorCode n then error else 0, c.eip, (c.sreg .cs).setWidth 32, c.eflags] ++ outer c

/-- What is pushed to the stack of an interrupt. -/
structure Interrupted (tss : Tss) (c c' : Cpu) (l : List U32) : Prop where
  pushed : Pushed c (innerEsp tss c) c' l
  cs : c'.sreg .cs = 0x08
  ss : c'.sreg .ss = innerSs tss c

theorem length_outer (c : Cpu) : (outer c).length ≤ 2 := by
  unfold outer
  split <;> simp

theorem Interrupted.push (h : Interrupted tss c c' l) (v : U32) (hlen : l.length < 64) :
    Interrupted tss c (c'.push id v) (v :: l) :=
  ⟨h.pushed.push v (by omega), h.cs, h.ss⟩

theorem interrupted_interrupt (tss : Tss) (base : U32) (n : Nat) (error : U32) (c : Cpu) :
    Interrupted tss c (interrupt tss base n error c) ((if pushesErrorCode n then [error] else []) ++
      ([c.eip, (c.sreg .cs).setWidth 32, c.eflags] ++ outer c)) := by
  obtain ⟨inner, hinner⟩ : ∃ inner, inner = if rpl (c.sreg .cs) = 0 then c
      else (((c.setReg .esp tss.esp0).setSreg .ss tss.ss0).push id ((c.sreg .ss).setWidth 32)).push id (c.reg .esp) :=
    ⟨_, rfl⟩
  have h0 : Pushed c (innerEsp tss c) inner (outer c) ∧ inner.sreg .ss = innerSs tss c := by
    rw [hinner]
    unfold outer innerEsp innerSs
    split
    · exact ⟨⟨trivial, BitVec.add_zero _, fun _ _ => rfl, fun _ _ _ => rfl⟩, rfl⟩
    · have hs : Pushed c tss.esp0 ((c.setReg .esp tss.esp0).setSreg .ss tss.ss0) [] :=
        ⟨trivial, BitVec.add_zero _, fun r hr => if_neg hr, fun s _ hs => if_neg hs⟩
      exact ⟨(hs.push _ (by decide)).push _ (Nat.le_of_ble_eq_true rfl), rfl⟩
  obtain ⟨h0, hss⟩ := h0
  have hlen := length_outer c
  have h1 := ((h0.push c.eflags (by omega)).push ((c.sreg .cs).setWidth 32)
    (by rw [List.length_cons]; omega)).push c.eip
    (by simp only [List.length_cons]; omega)
  unfold interrupt
  rw [← hinner]
  -- the gate's changes to `cs`, `eip` and `eflags` touch nothing that was pushed
  have hgate : ∀ {d : Cpu} {l : List U32}, Pushed c (innerEsp tss c) d l → d.sreg .ss = innerSs tss c →
      Interrupted tss c { d.setSreg .cs 0x08 with eip := base, eflags := c.eflags &&& ~~~0x34300 } l := fun hd hds =>
    ⟨⟨hd.stack, hd.esp, hd.reg, fun s hs hs' => (setSreg_of_ne _ _ hs).trans (hd.sreg s hs hs')⟩, rfl, hds⟩
  by_cases hn : pushesErrorCode n = true
  · simp only [if_pos hn]
    exact hgate (h1.push error (by simp only [List.length_cons]; omega)) hss
  · simp only [if_neg hn]
    exact hgate h1 hss

/-- **The stub of a vector** makes the stack the same for all, but for vector 17. -/
theorem Interrupted.stub (h : Interrupted tss c c' ((if pushesErrorCode n then [error] else []) ++
    ([c.eip, (c.sreg .cs).setWidth 32, c.eflags] ++ outer c))) (h17 : n ≠ 17) :
    ∃ c'', c'.execAll id (Loris.stub n) = some c'' ∧ Interrupted tss c c'' (interrupted n error c) := by
  have hlen := length_outer c
  unfold Loris.stub
  by_cases he : n = 8 ∨ (10 ≤ n ∧ n ≤ 14)
  · have hp : pushesErrorCode n = true := decide_eq_true (by omega)
    rw [if_pos he]
    rw [if_pos hp] at h
    unfold interrupted
    rw [if_pos hp]
    exact ⟨_, rfl, h.push _ (by simp only [List.length_append, List.length_cons, List.length_nil]; omega)⟩
  · have hp : ¬ pushesErrorCode n = true := fun hp => by
      have := of_decide_eq_true hp
      omega
    rw [if_neg he]
    rw [if_neg hp] at h
    unfold interrupted
    rw [if_neg hp]
    have h2 := (h.push 0 (by simp only [List.length_append, List.length_cons, List.length_nil]; omega)).push
      (BitVec.ofNat 32 n) (by simp only [List.length_append, List.length_cons, List.length_nil]; omega)
    split
    · exact ⟨_, rfl, h2⟩
    · exact ⟨_, rfl, h2⟩

/-- The words of the structure, from its address on. -/
def frame (n : Nat) (error : U32) (c : Cpu) (esp : U32) : List U32 :=
  [(c.sreg .ds).setWidth 32, (c.sreg .es).setWidth 32, (c.sreg .fs).setWidth 32, (c.sreg .gs).setWidth 32, c.reg .edi,
    c.reg .esi, c.reg .ebp, esp, c.reg .ebx, c.reg .edx, c.reg .ecx, c.reg .eax] ++ interrupted n error c

theorem length_interrupted (n : Nat) (error : U32) (c : Cpu) : (interrupted n error c).length ≤ 7 := by
  have := length_outer c
  unfold interrupted
  simp only [List.length_append, List.length_cons, List.length_nil]
  omega

theorem length_frame (n : Nat) (error : U32) (c : Cpu) (esp : U32) : (frame n error c esp).length ≤ 19 := by
  have := length_interrupted n error c
  unfold frame
  simp only [List.length_append, List.length_cons, List.length_nil]
  omega

/-- **The common stub** up to the call. -/
theorem Interrupted.commonStub (h : Interrupted tss c c' (interrupted n error c)) :
    ∃ c'', c'.execAll id Loris.commonStub = some c'' ∧
      c''.OnStack ((c''.reg .esp + 4) :: frame n error c (c'.reg .esp)) ∧
      c''.reg .esp + 4 + BitVec.ofNat 32 (4 * (frame n error c (c'.reg .esp)).length) = innerEsp tss c ∧
      c''.sreg .cs = 0x08 ∧ c''.sreg .ss = innerSs tss c := by
  have hlen := length_interrupted n error c
  have hp := h.pushed.pusha (by omega)
  have hlen' := length_frame n error c (c'.reg .esp)
  have hseg : ∀ s, s ≠ .cs → s ≠ .ss → (c'.pusha id).sreg s = c.sreg s := hp.sreg
  obtain ⟨d, hd⟩ : ∃ d, d = ((((c'.pusha id).push id ((c.sreg .gs).setWidth 32)).push id
      ((c.sreg .fs).setWidth 32)).push id ((c.sreg .es).setWidth 32)).push id ((c.sreg .ds).setWidth 32) := ⟨_, rfl⟩
  have hpush : Pushed c (innerEsp tss c) d (frame n error c (c'.reg .esp)) := by
    rw [hd]
    refine (((hp.push _ ?_).push _ ?_).push _ ?_).push _ ?_ <;>
      simp only [List.length_append, List.length_cons, List.length_nil] <;> omega
  have hcs : d.sreg .cs = 0x08 ∧ d.sreg .ss = innerSs tss c := by
    rw [hd]
    exact ⟨h.cs, h.ss⟩
  let eax := d.reg .eax &&& 0xFFFF0000 ||| (0x10 : BitVec 16).setWidth 32
  obtain ⟨e, he⟩ : ∃ e, e = ((((d.setReg .eax eax).setSreg .ds (eax.setWidth 16)).setSreg .es (eax.setWidth 16)).setSreg
      .fs (eax.setWidth 16)).setSreg .gs (eax.setWidth 16) := ⟨_, rfl⟩
  have hex : c'.execAll id Loris.commonStub = some (e.push id (e.reg .esp)) := by
    rw [he]
    simp only [eax]
    rw [hd, ← hseg .gs (by decide) (by decide), ← hseg .fs (by decide) (by decide), ← hseg .es (by decide) (by decide),
      ← hseg .ds (by decide) (by decide)]
    rfl
  have hesp : e.reg .esp = d.reg .esp := by rw [he]; rfl
  have hstack : e.OnStack (frame n error c (c'.reg .esp)) := by
    rw [he]
    exact hpush.stack
  refine ⟨_, hex, ?_, ?_, ?_, ?_⟩
  · rw [push_esp, BitVec.sub_add_cancel]
    exact hstack.push (by omega)
  · rw [push_esp, BitVec.sub_add_cancel, hesp]
    exact hpush.esp
  · rw [push_sreg, he]
    exact hcs.1
  · rw [push_sreg, he]
    exact hcs.2

/-! ## Out of the handler -/

theorem setWidth_selector (s : BitVec 16) : ((s.setWidth 32 : U32).setWidth 16 : BitVec 16) = s :=
  BitVec.eq_of_toNat_eq (by rw [BitVec.toNat_setWidth, BitVec.toNat_setWidth]; have := s.isLt; omega)

/-- What the common stub leaves for the `IRET`, behind the call in `d`. -/
structure Unwound (c d e : Cpu) : Prop where
  stack : e.OnStack ([c.eip, (c.sreg .cs).setWidth 32, c.eflags] ++ outer c)
  reg : ∀ r, r ≠ .esp → e.reg r = c.reg r
  esp : e.reg .esp = d.reg .esp + 60
  sreg : ∀ s, s ≠ .cs → s ≠ .ss → e.sreg s = c.sreg s
  kept : ∀ s, s = .cs ∨ s = .ss → e.sreg s = d.sreg s

theorem execAll_unwind {d : Cpu} {p esp : U32} (hs : d.OnStack (p :: frame n error c esp)) :
    ∃ e, d.execAll id commonReturn = some (e.iret id) ∧ Unwound c d e := by
  obtain ⟨d₀, h0, hs0, hesp0, hsreg0⟩ : ∃ d₀, d.exec id (.add (.imm 4) (.reg .esp)) = some d₀ ∧
      d₀.OnStack (frame n error c esp) ∧ d₀.reg .esp = d.reg .esp + 4 ∧ d₀.sreg = d.sreg := ⟨_, rfl, hs.2, rfl, rfl⟩
  obtain ⟨d₁, h1, hs1, hesp1, hds, hq1⟩ := hs0.pops .ds
  obtain ⟨d₂, h2, hs2, hesp2, hes, hq2⟩ := hs1.pops .es
  obtain ⟨d₃, h3, hs3, hesp3, hfs, hq3⟩ := hs2.pops .fs
  obtain ⟨d₄, h4, hs4, hesp4, hgs, hq4⟩ := hs3.pops .gs
  obtain ⟨d₅, h5, hs5, hsreg5, hreg5⟩ : ∃ d₅, d₄.exec id .popa = some d₅ ∧ d₅.OnStack (interrupted n error c) ∧
      d₅.sreg = d₄.sreg ∧ d₅.reg = fun r => if r = .esp then d₄.reg .esp + 32 else c.reg r := by
    obtain ⟨hst, hsr, hre⟩ := hs4.popa
    refine ⟨_, rfl, hst, hsr, ?_⟩
    rw [hre]
    funext r
    cases r with
    | esp =>
      simp only [BitVec.add_assoc, if_true]
      exact congrArg (d₄.reg .esp + ·) (by decide)
    | _ => rfl
  obtain ⟨d₆, h6, hs6, hreg6, hsreg6⟩ : ∃ d₆, d₅.exec id (.add (.imm 8) (.reg .esp)) = some d₆ ∧
      d₆.OnStack ([c.eip, (c.sreg .cs).setWidth 32, c.eflags] ++ outer c) ∧
      d₆.reg = (fun r => if r = .esp then d₅.reg .esp + 8 else d₅.reg r) ∧ d₆.sreg = d₅.sreg := by
    refine ⟨_, rfl, ?_, rfl, rfl⟩
    have := hs5.drop.drop
    unfold Cpu.OnStack at this ⊢
    rwa [show ((d₅.drop 4).drop 4).reg .esp = d₅.reg .esp + 8 from BitVec.add_assoc ..] at this
  have hrun : d.execAll id commonReturn = some (d₆.iret id) := by
    unfold commonReturn
    rw [execAll_cons h0, execAll_cons h1, execAll_cons h2, execAll_cons h3, execAll_cons h4, execAll_cons h5,
      execAll_cons h6]
    rfl
  refine ⟨d₆, hrun, hs6, fun r hr => ?_, ?_, fun s hcs hss => ?_, fun s hs' => ?_⟩
  · rw [hreg6, hreg5]
    simp only [if_neg hr]
  · rw [hreg6, hreg5]
    simp only [if_true, hesp4, hesp3, hesp2, hesp1, hesp0, BitVec.add_assoc]
    exact congrArg (d.reg .esp + ·) (by decide)
  · rw [hsreg6, hsreg5]
    cases s with
    | cs => exact absurd rfl hcs
    | ss => exact absurd rfl hss
    | ds => rw [hq4 _ (by decide), hq3 _ (by decide), hq2 _ (by decide), hds, setWidth_selector]
    | es => rw [hq4 _ (by decide), hq3 _ (by decide), hes, setWidth_selector]
    | fs => rw [hq4 _ (by decide), hfs, setWidth_selector]
    | gs => rw [hgs, setWidth_selector]
  · rcases hs' with rfl | rfl <;>
      rw [hsreg6, hsreg5, hq4 _ (by decide), hq3 _ (by decide), hq2 _ (by decide), hq1 _ (by decide), hsreg0]

section Iret

variable {d e : Cpu} (h : Unwound c d e) (hcs : d.sreg .cs = 0x08)

include h hcs

theorem Unwound.leaves : rpl (e.sreg .cs) < rpl (((c.sreg .cs).setWidth 32 : U32).setWidth 16) ↔
    ¬ rpl (c.sreg .cs) = 0 := by
  rw [h.kept _ (Or.inl rfl), hcs, setWidth_selector]
  show 0 < rpl (c.sreg .cs) ↔ _
  exact BitVec.pos_iff_ne_zero _

/-- An `IRET` that stays in ring 0 leaves the stack where the interrupt found it. -/
theorem Unwound.iret_same (h0 : rpl (c.sreg .cs) = 0) (hesp : d.reg .esp + 72 = c.reg .esp)
    (hss : d.sreg .ss = c.sreg .ss) : (e.iret id).reg = c.reg ∧ (e.iret id).sreg = c.sreg ∧
      (e.iret id).eip = c.eip ∧ (e.iret id).eflags = c.eflags := by
  have hespc : e.reg .esp + 12 = c.reg .esp := by
    rw [h.esp, BitVec.add_assoc, ← hesp]
    exact congrArg (d.reg .esp + ·) (by decide)
  rw [h.stack.iret (mt (h.leaves hcs).1 (not_not.2 h0))]
  refine ⟨funext fun r => ?_, funext fun s => ?_, rfl, rfl⟩
  · by_cases hr : r = .esp
    · rw [hr, ← hespc]
      show e.reg .esp + 4 + 4 + 4 = _
      rw [BitVec.add_assoc, BitVec.add_assoc]
      rfl
    · rw [← h.reg r hr]
      simp only [drop, setSreg, setReg, if_neg hr]
  · by_cases hs : s = .cs
    · rw [hs]
      exact setWidth_selector _
    · refine (setSreg_of_ne _ _ hs).trans ?_
      by_cases hs' : s = .ss
      · rw [hs']
        exact (h.kept _ (Or.inr rfl)).trans hss
      · exact h.sreg s hs hs'

/-- An `IRET` to an outer ring takes its stack off too. -/
theorem Unwound.iret_outer (h0 : ¬ rpl (c.sreg .cs) = 0) : (e.iret id).reg = c.reg ∧ (e.iret id).sreg = c.sreg ∧
    (e.iret id).eip = c.eip ∧ (e.iret id).eflags = c.eflags := by
  have houter : outer c = [c.reg .esp, (c.sreg .ss).setWidth 32] := if_neg h0
  have hstack := h.stack
  rw [houter] at hstack
  rw [hstack.iret_outer ((h.leaves hcs).2 h0)]
  refine ⟨funext fun r => ?_, funext fun s => ?_, rfl, rfl⟩
  · by_cases hr : r = .esp
    · rw [hr]
      rfl
    · refine (setReg_of_ne _ _ hr).trans ?_
      rw [← h.reg r hr]
      simp only [drop, setSreg, setReg, if_neg hr]
  · by_cases hs' : s = .ss
    · rw [hs']
      exact setWidth_selector _
    · refine (setSreg_of_ne _ _ hs').trans ?_
      by_cases hs : s = .cs
      · rw [hs]
        exact setWidth_selector _
      · exact (setSreg_of_ne _ _ hs).trans (h.sreg s hs hs')

end Iret

/-- **The common stub** behind the call takes everything off again. -/
theorem execAll_commonReturn {d : Cpu} {p esp : U32} (hs : d.OnStack (p :: frame n error c esp))
    (hesp : d.reg .esp + 4 + BitVec.ofNat 32 (4 * (frame n error c esp).length) = innerEsp tss c)
    (hcs : d.sreg .cs = 0x08) (hss : d.sreg .ss = innerSs tss c) :
    ∃ c', d.execAll id commonReturn = some c' ∧ c'.reg = c.reg ∧ c'.sreg = c.sreg ∧ c'.eip = c.eip ∧
      c'.eflags = c.eflags := by
  obtain ⟨e, hrun, he⟩ := execAll_unwind hs
  refine ⟨_, hrun, ?_⟩
  by_cases h0 : rpl (c.sreg .cs) = 0
  · unfold innerSs at hss
    unfold innerEsp at hesp
    rw [if_pos h0] at hss hesp
    have hlen : (frame n error c esp).length = 17 := by
      unfold frame interrupted
      rw [show outer c = [] from if_pos h0]
      rfl
    rw [hlen, BitVec.add_assoc] at hesp
    exact he.iret_same hcs h0 hesp hss
  · exact he.iret_outer hcs h0

/-! ## The whole way -/

/-- **Every named field holds the interrupted value of its name.** -/
structure Registers.Holds (r : Registers) (n : Nat) (error : U32) (c : Cpu) : Prop where
  segs : r.gs = (c.sreg .gs).setWidth 32 ∧ r.fs = (c.sreg .fs).setWidth 32 ∧ r.es = (c.sreg .es).setWidth 32 ∧
    r.ds = (c.sreg .ds).setWidth 32
  general : r.edi = c.reg .edi ∧ r.esi = c.reg .esi ∧ r.ebp = c.reg .ebp ∧ r.ebx = c.reg .ebx ∧ r.edx = c.reg .edx ∧
    r.ecx = c.reg .ecx ∧ r.eax = c.reg .eax
  esp : r.esp = c.reg .esp
  number : r.int_no = BitVec.ofNat 32 n ∧ r.err_code = if pushesErrorCode n then error else 0
  processor : r.eip = c.eip ∧ r.cs = (c.sreg .cs).setWidth 32 ∧ r.eflags = c.eflags

/-- As the stubs make it, the segment registers left out: `esp` is the stack pointer that `pushal` found, which is the
address of `int_no`. -/
structure Registers.Saved (r : Registers) (p : U32) (n : Nat) (error : U32) (c : Cpu) : Prop where
  general : r.edi = c.reg .edi ∧ r.esi = c.reg .esi ∧ r.ebp = c.reg .ebp ∧ r.ebx = c.reg .ebx ∧ r.edx = c.reg .edx ∧
    r.ecx = c.reg .ecx ∧ r.eax = c.reg .eax
  esp : r.esp = p + 48
  number : r.int_no = BitVec.ofNat 32 n ∧ r.err_code = if pushesErrorCode n then error else 0
  processor : r.eip = c.eip ∧ r.cs = (c.sreg .cs).setWidth 32 ∧ r.eflags = c.eflags

theorem saved_of_frame {m : Mem} {p esp : U32} (h : Words m p (frame n error c esp)) (hesp : esp = p + 48) :
    (Registers.at m p).Saved p n error c :=
  ⟨⟨h.get 4 rfl, h.get 5 rfl, h.get 6 rfl, h.get 8 rfl, h.get 9 rfl, h.get 10 rfl, h.get 11 rfl⟩,
    (h.get 7 rfl).trans hesp, ⟨h.get 12 rfl, h.get 13 rfl⟩, h.get 14 rfl, h.get 15 rfl, h.get 16 rfl⟩

/-- **The stubs and `struct Registers`**, for every vector but 17: the structure holds what was interrupted, and when
the handler returns without a change to it, what was interrupted goes on with every register as it was. -/
theorem interrupt_frame (tss : Tss) (base : U32) (n : Nat) (error : U32) (c : Cpu) (h17 : n ≠ 17) :
    ∃ c', enter tss base n error c = some c' ∧ (Registers.at c'.mem (argument c')).Saved (argument c') n error c ∧
      ∀ d, Returned (argument c') c' d → ∃ c'', d.execAll id commonReturn = some c'' ∧ c''.reg = c.reg ∧
        c''.sreg = c.sreg ∧ c''.eip = c.eip ∧ c''.eflags = c.eflags := by
  obtain ⟨a, ha, hia⟩ := (interrupted_interrupt tss base n error c).stub h17
  obtain ⟨b, hb, hstack, hesp, hcs, hss⟩ := hia.commonStub
  have hlen := length_frame n error c (a.reg .esp)
  have harg : argument b = b.reg .esp + 4 := hstack.top
  have hlenI : 4 * (frame n error c (a.reg .esp)).length = 48 + 4 * (interrupted n error c).length := by
    unfold frame
    simp only [List.length_append, List.length_cons, List.length_nil]
    omega
  refine ⟨b, ?_, ?_, fun d hd => ?_⟩
  · unfold enter
    rw [execAll_append, ha, Option.bind_some, hb]
  · rw [harg]
    refine saved_of_frame hstack.2 ?_
    -- both are what is left of the stack above `int_no`
    rw [hlenI, BitVec.ofNat_add, ← BitVec.add_assoc, ← hia.pushed.esp] at hesp
    exact ((BitVec.add_left_inj _).1 hesp).symm
  · rw [harg] at hd
    have hmem : Words d.mem (b.reg .esp + 4) (frame n error c (a.reg .esp)) :=
      hstack.2.congr (by omega) fun x hx => hd.kept x (by unfold sizeofRegisters; omega)
    refine @execAll_commonReturn tss error n c d (load d.mem (d.reg .esp)) (a.reg .esp) ⟨rfl, ?_⟩ ?_
      (hd.cs.trans hcs) (hd.ss.trans hss)
    · rw [hd.esp]
      exact hmem
    · rw [hd.esp]
      exact hesp

/-- A kernel with a `gs` of its own. -/
def kernelCpu : Cpu where
  reg := fun r => if r = .esp then 0x9000 else 1
  sreg := fun s => if s = .cs then 0x08 else if s = .gs then 0x18 else 0x10
  eip := 0x100000
  eflags := 0x202
  cr0 := 0x80000001
  mem := fun _ => 0

theorem interrupt_frame_timer : ∃ c', enter ⟨0, 0⟩ 0x200000 32 0 kernelCpu = some c' ∧
    (Registers.at c'.mem (argument c')).Saved (argument c') 32 0 kernelCpu ∧
      ∃ c'', c'.execAll id commonReturn = some c'' ∧ c''.reg = kernelCpu.reg ∧ c''.eip = kernelCpu.eip := by
  obtain ⟨c', henter, hsaved, hret⟩ := interrupt_frame ⟨0, 0⟩ 0x200000 32 0 kernelCpu (by decide)
  obtain ⟨c'', hrun, hreg, -, heip, -⟩ := hret c' ⟨rfl, rfl, rfl, fun _ _ => rfl⟩
  exact ⟨c', henter, hsaved, c'', hrun, hreg, heip⟩

/-- The `esp` of the structure is not the interrupted one.  Nor is `gs`, which is pushed first and declared first; and
for vector 17 no field is in its place. -/
theorem interrupt_frame_differs :
    (∃ c', enter ⟨0, 0⟩ 0x200000 32 0 kernelCpu = some c' ∧ ¬ (Registers.at c'.mem (argument c')).Holds 32 0 kernelCpu ∧
      (Registers.at c'.mem (argument c')).esp ≠ kernelCpu.reg .esp ∧
      (Registers.at c'.mem (argument c')).gs ≠ (kernelCpu.sreg .gs).setWidth 32) ∧
    ∃ c', enter ⟨0, 0⟩ 0x200000 17 0 kernelCpu = some c' ∧ (Registers.at c'.mem (argument c')).eip ≠ kernelCpu.eip :=
  ⟨⟨_, rfl, fun h => absurd h.esp (by decide), by decide, by decide⟩, _, rfl, by decide⟩

end Loris
