import Loris.X86
/-!
# CopyPage — `copy_page_physical` of `PagingAssembly.S`

The count, the stride and the masks of the routine are written without a `$`, so they are words in memory: at 1024, at
4, at 0x7FFFFFFF and at 0x80000000.  Where they keep the loop within the page (`InPage`), the routine copies the page
exactly when the masks restore `CR0` and every byte that no round reaches was a copy before (`copy_page`).
-/
namespace Loris

open ByteMem X86 X86.Cpu

/-- `copy_page_physical`; `.loop` is instruction 9. -/
def copyPagePhysical : List Instr :=
  [.op (.push (.reg .ebx)),
    .op .pushf,
    .op .cli,
    .op (.mov (.ind 12 .esp) (.reg .ebx)),
    .op (.mov (.ind 16 .esp) (.reg .ecx)),
    .op (.mov .cr0 (.reg .edx)),
    .op (.and (.mem 0x7FFFFFFF) (.reg .edx)),
    .op (.mov (.reg .edx) .cr0),
    .op (.mov (.mem 1024) (.reg .edx)),
    .op (.mov (.ind 0 .ebx) (.reg .eax)),
    .op (.mov (.reg .eax) (.ind 0 .ecx)),
    .op (.add (.mem 4) (.reg .ebx)),
    .op (.add (.mem 4) (.reg .ecx)),
    .op (.dec (.reg .edx)),
    .jnz 9,
    .op (.mov .cr0 (.reg .edx)),
    .op (.or (.mem 0x80000000) (.reg .edx)),
    .op (.mov (.reg .edx) .cr0),
    .op .popf,
    .op (.pop (.reg .ebx)),
    .ret]

/-- `x` is one of the `n` bytes at `p`. -/
def InRange (p : U32) (n : Nat) (x : U32) : Prop := p.toNat ≤ x.toNat ∧ x.toNat < p.toNat + n

/-- The `i`-th byte above the words that the routine pushes; the return address is at 8, the arguments behind it. -/
def stackByte (page : U32 → U32) (c : Cpu) (i : Nat) : U32 := c.phys page (c.reg .esp - 8 + BitVec.ofNat 32 i)

/-- **A call** `copy_page_physical(src, dst)`: the ranges do not overlap, and what the routine keeps on its stack is
apart from them. -/
structure PageCall (page : U32 → U32) (c : Cpu) (src dst : U32) : Prop where
  arguments : c.readWord page (c.reg .esp + 4) = src ∧ c.readWord page (c.reg .esp + 8) = dst
  fits : src.toNat + 4096 ≤ 2 ^ 32 ∧ dst.toNat + 4096 ≤ 2 ^ 32
  apart : src.toNat + 4096 ≤ dst.toNat ∨ dst.toNat + 4096 ≤ src.toNat
  /-- The processor does not page without protection. -/
  cr0 : ¬ (c.cr0 &&& bitPG ≠ 0 ∧ c.cr0 &&& bitPE = 0)
  stack : ∀ i j, i < 20 → j < 20 → i ≠ j → stackByte page c i ≠ stackByte page c j
  stackDst : ∀ i, i < 12 → ¬ InRange dst 4096 (stackByte page c i)
  stackSrc : ∀ i, i < 8 → ¬ InRange src 4096 (stackByte page c i)

/-- **The page is copied**: the routine returns, with the bytes of `src` at `dst`, and `EBX`, `EFLAGS` and `CR0` as they
were; nothing else has changed but the stack below the call. -/
def CopiesPage (page : U32 → U32) (c : Cpu) (src dst : U32) : Prop :=
  ∃ c' steps, (∀ fuel, steps ≤ fuel → runFrom page copyPagePhysical fuel 0 c = some c') ∧
    (∀ i, i < 4096 → c'.mem (dst + BitVec.ofNat 32 i) = c.mem (src + BitVec.ofNat 32 i)) ∧
    (∀ x, ¬ InRange dst 4096 x → (∀ i, i < 8 → x ≠ stackByte page c i) → c'.mem x = c.mem x) ∧
    c'.reg .ebx = c.reg .ebx ∧ c'.eflags = c.eflags ∧ c'.cr0 = c.cr0 ∧
    c'.eip = c.readWord page (c.reg .esp) ∧ c'.reg .esp = c.reg .esp + 4

/-- How often `dec` and `jnz` go round, from the count `v`. -/
def rounds (v : U32) : Nat := if v = 0 then 2 ^ 32 else v.toNat

/-- **The loop stays within the page**: the mask turns paging off, and the stride and the count do not lead out of the
page.  Neither the page nor the stack lies over the operands. -/
structure InPage (page : U32 → U32) (c : Cpu) (dst : U32) : Prop where
  off : c.cr0 &&& c.readWord page 0x7FFFFFFF &&& bitPG = 0
  last : (rounds (load c.mem 1024) - 1) * (load c.mem 4).toNat ≤ 4092
  apart : ∀ k, k < 4 → ¬ InRange dst 4096 (4 + BitVec.ofNat 32 k) ∧ ¬ InRange dst 4096 (0x80000000 + BitVec.ofNat 32 k)
  stack : ∀ i k, i < 8 → k < 4 → stackByte page c i ≠ 4 + BitVec.ofNat 32 k ∧
    stackByte page c i ≠ 1024 + BitVec.ofNat 32 k ∧ stackByte page c i ≠ 0x80000000 + BitVec.ofNat 32 k ∧
    stackByte page c i ≠ c.phys page (0x7FFFFFFF + BitVec.ofNat 32 k)

/-- The byte `i` of the page is in a word that one of `N` rounds with the stride `S` copies. -/
def Reached (S N i : Nat) : Prop := ∃ j, j < N ∧ j * S ≤ i ∧ i < j * S + 4

variable {page : U32 → U32} {c d : Cpu} {src dst a : U32} {k S N : Nat} {m m' : Mem}

/-! ## The loop -/

/-- After `k` rounds from the memory `m`. -/
structure Copying (m : Mem) (cr0 esp src dst : U32) (S N k : Nat) (d : Cpu) : Prop where
  cr0 : d.cr0 = cr0
  esp : d.reg .esp = esp
  ebx : d.reg .ebx = src + BitVec.ofNat 32 (k * S)
  ecx : d.reg .ecx = dst + BitVec.ofNat 32 (k * S)
  edx : d.reg .edx = BitVec.ofNat 32 (N - k)
  copied : ∀ i, i < 4096 → Reached S k i → d.mem (dst + BitVec.ofNat 32 i) = m (src + BitVec.ofNat 32 i)
  left : ∀ i, i < 4096 → ¬ Reached S k i → d.mem (dst + BitVec.ofNat 32 i) = m (dst + BitVec.ofNat 32 i)
  rest : ∀ x, ¬ InRange dst 4096 x → d.mem x = m x

/-- What the loop needs of the memory it starts from. -/
structure Loop (m : Mem) (cr0 src dst : U32) (S N : Nat) : Prop where
  off : cr0 &&& bitPG = 0
  fits : src.toNat + 4096 ≤ 2 ^ 32 ∧ dst.toNat + 4096 ≤ 2 ^ 32
  apart : src.toNat + 4096 ≤ dst.toNat ∨ dst.toNat + 4096 ≤ src.toNat
  stride : load m 4 = BitVec.ofNat 32 S
  last : (N - 1) * S ≤ 4092
  count : N ≤ 2 ^ 32
  operand : ∀ k, k < 4 → ¬ InRange dst 4096 (4 + BitVec.ofNat 32 k)

theorem setZF_jumps (c : Cpu) (v : U32) : (c.setZF v).eflags &&& bitZF = 0 ↔ v ≠ 0 := by
  unfold setZF
  by_cases hv : v = 0
  · simp only [hv, if_true, ne_eq, not_true_eq_false, iff_false]
    intro h
    have := congrArg (fun x => x.getLsbD 6) h
    simp [bitZF] at this
  · refine ⟨fun _ => hv, fun _ => ?_⟩
    simp only [if_neg hv]
    rw [BitVec.and_assoc, show ~~~bitZF &&& bitZF = 0 from rfl]
    exact BitVec.and_zero

theorem execRound (page : U32 → U32) (hoff : d.cr0 &&& bitPG = 0) {v s : U32} (hv : load d.mem (d.reg .ebx) = v)
    (hm : store d.mem (d.reg .ecx) v = m) (hs : load m 4 = s) :
    ∃ d', d'.cr0 = d.cr0 ∧ d'.mem = m ∧ d'.reg .esp = d.reg .esp ∧ d'.reg .ebx = d.reg .ebx + s ∧
      d'.reg .ecx = d.reg .ecx + s ∧ d'.reg .edx = d.reg .edx - 1 ∧ ∀ n, runFrom page copyPagePhysical (n + 6) 9 d =
        runFrom page copyPagePhysical n (if d.reg .edx - 1 = 0 then 15 else 9) d' := by
  obtain ⟨d1, hd1⟩ : ∃ d1, d1 = d.setReg .eax v := ⟨_, rfl⟩
  obtain ⟨d2, hd2⟩ : ∃ d2, d2 = { d1 with mem := m } := ⟨_, rfl⟩
  obtain ⟨d3, hd3⟩ : ∃ d3, d3 = (d2.setReg .ebx (d2.reg .ebx + s)).setZF (d2.reg .ebx + s) := ⟨_, rfl⟩
  obtain ⟨d4, hd4⟩ : ∃ d4, d4 = (d3.setReg .ecx (d3.reg .ecx + s)).setZF (d3.reg .ecx + s) := ⟨_, rfl⟩
  obtain ⟨d5, hd5⟩ : ∃ d5, d5 = (d4.setReg .edx (d4.reg .edx - 1)).setZF (d4.reg .edx - 1) := ⟨_, rfl⟩
  have x1 : d.exec page (.mov (.ind 0 .ebx) (.reg .eax)) = some d1 := by
    show some (d.setReg .eax (d.readWord page (d.reg .ebx + 0#32))) = _
    rw [readWord_off hoff, BitVec.add_zero, hv, hd1]
  have hecx : d1.reg .ecx = d.reg .ecx := by
    rw [hd1]
    rfl
  have x2 : d1.exec page (.mov (.reg .eax) (.ind 0 .ecx)) = some d2 := by
    show some (d1.writeWord page (d1.reg .ecx + 0#32) (d1.reg .eax)) = _
    rw [writeWord_off (by rw [hd1]; exact hoff), BitVec.add_zero, hecx, hd2, ← hm, hd1]
    rfl
  have hread : d2.readWord page 4 = s := by
    rw [readWord_off (by rw [hd2, hd1]; exact hoff), hd2]
    exact hs
  have x3 : d2.exec page (.add (.mem 4) (.reg .ebx)) = some d3 := by
    show some ((d2.setReg .ebx (d2.reg .ebx + d2.readWord page 4)).setZF (d2.reg .ebx + d2.readWord page 4)) = _
    rw [hread, hd3]
  have x4 : d3.exec page (.add (.mem 4) (.reg .ecx)) = some d4 := by
    have : d3.readWord page 4 = s := by
      rw [← hread, hd3]
      rfl
    show some ((d3.setReg .ecx (d3.reg .ecx + d3.readWord page 4)).setZF (d3.reg .ecx + d3.readWord page 4)) = _
    rw [this, hd4]
  have x5 : d4.exec page (.dec (.reg .edx)) = some d5 := by
    rw [hd5]
    rfl
  have hedx : d4.reg .edx = d.reg .edx := by
    rw [hd4, hd3, hd2, hd1]
    rfl
  refine ⟨d5, ?_, ?_, ?_, ?_, ?_, ?_, fun n => ?_⟩
  · rw [hd5, hd4, hd3, hd2, hd1]
    rfl
  · rw [hd5, hd4, hd3, hd2]
    rfl
  · rw [hd5, hd4, hd3, hd2, hd1]
    rfl
  · rw [hd5, hd4, hd3, hd2, hd1]
    rfl
  · rw [hd5, hd4, hd3, hd2, hd1]
    rfl
  · rw [← hedx, hd5]
    rfl
  · rw [runFrom_op rfl x1, runFrom_op rfl x2, runFrom_op rfl x3, runFrom_op rfl x4, runFrom_op rfl x5, runFrom_jnz rfl]
    have hz : d5.eflags &&& bitZF = 0 ↔ d.reg .edx - 1 ≠ 0 := by
      rw [← hedx, hd5]
      exact setZF_jumps _ _
    by_cases h0 : d.reg .edx - 1 = 0
    · rw [if_pos h0, if_neg fun h => hz.1 h h0]
    · rw [if_neg h0, if_pos (hz.2 h0)]

/-- **One round of the loop.** -/
theorem Copying.round (page : U32 → U32) {cr0 esp : U32} (h : Copying m cr0 esp src dst S N k d)
    (hl : Loop m cr0 src dst S N) (hk : k < N) : ∃ d', Copying m cr0 esp src dst S N (k + 1) d' ∧ ∀ n,
      runFrom page copyPagePhysical (n + 6) 9 d = runFrom page copyPagePhysical n (if k + 1 = N then 15 else 9) d' := by
  obtain ⟨hsf, hdf⟩ := hl.fits
  have hapart := hl.apart
  have hcount := hl.count
  have hle : k * S ≤ 4092 := Nat.le_trans (Nat.mul_le_mul_right S (by omega)) hl.last
  have hdst := toNat_add_ofNat (p := dst) (i := k * S) (by omega)
  have hcounter : d.reg .edx - 1 = BitVec.ofNat 32 (N - (k + 1)) := by
    rw [h.edx, show N - k = N - (k + 1) + 1 by omega, BitVec.ofNat_add]
    exact BitVec.add_sub_cancel ..
  -- the word that the round copies
  obtain ⟨v, hv⟩ : ∃ v, load d.mem (d.reg .ebx) = v := ⟨_, rfl⟩
  obtain ⟨m', hm'⟩ : ∃ m', store d.mem (d.reg .ecx) v = m' := ⟨_, rfl⟩
  have hother : ∀ x : U32, 4 ≤ (x - (dst + BitVec.ofNat 32 (k * S))).toNat → m' x = d.mem x := fun x hx => by
    rw [← hm', store_apply_of_ge]
    rwa [h.ecx]
  have hrest : ∀ x, ¬ InRange dst 4096 x → m' x = m x := fun x hx => by
    rw [hother x, h.rest x hx]
    unfold InRange at hx
    rw [BitVec.toNat_sub]
    omega
  have hbefore : ∀ i, i < 4096 → ¬ (k * S ≤ i ∧ i < k * S + 4) →
      m' (dst + BitVec.ofNat 32 i) = d.mem (dst + BitVec.ofNat 32 i) := fun i hi hn => by
    have := toNat_add_ofNat (p := dst) (i := i) (by omega)
    refine hother _ ?_
    rw [BitVec.toNat_sub]
    omega
  have hword : ∀ i, i < 4096 → k * S ≤ i ∧ i < k * S + 4 →
      m' (dst + BitVec.ofNat 32 i) = m (src + BitVec.ofNat 32 i) := fun i hi hin => by
    have hsrc : ¬ InRange dst 4096 (src + BitVec.ofNat 32 i) := fun hx => by
      have := toNat_add_ofNat (p := src) (i := i) (by omega)
      unfold InRange at hx
      omega
    obtain ⟨j, rfl⟩ : ∃ j, i = k * S + j := ⟨i - k * S, by omega⟩
    have hj : j < 4 := by omega
    rw [← h.rest _ hsrc, BitVec.ofNat_add, ← BitVec.add_assoc, ← BitVec.add_assoc, ← h.ecx, ← h.ebx,
      ← byteOf_load m' _ hj, ← byteOf_load d.mem _ hj, hv, ← hm', load_store_same]
  -- the stride is still there
  have hs : load m' 4 = BitVec.ofNat 32 S := (load_eq_iff.2 fun j hj => hrest _ (hl.operand j hj)).trans hl.stride
  obtain ⟨d', hcr0, hmem, hesp, hebx, hecx, hedx, hrun⟩ := execRound page (by rw [h.cr0, hl.off]) hv hm' hs
  refine ⟨d', ⟨hcr0.trans h.cr0, hesp.trans h.esp, ?_, ?_, ?_, ?_, ?_, ?_⟩, fun n => ?_⟩
  · rw [hebx, h.ebx, BitVec.add_assoc, ← BitVec.ofNat_add, Nat.succ_mul]
  · rw [hecx, h.ecx, BitVec.add_assoc, ← BitVec.ofNat_add, Nat.succ_mul]
  · exact hedx.trans hcounter
  · rintro i hi ⟨j, hj, hij⟩
    rw [hmem]
    by_cases hin : k * S ≤ i ∧ i < k * S + 4
    · exact hword i hi hin
    · rw [hbefore i hi hin]
      refine h.copied i hi ⟨j, Nat.lt_of_le_of_ne (Nat.le_of_lt_succ hj) fun he => hin ?_, hij⟩
      rwa [← he]
  · intro i hi hn
    rw [hmem, hbefore i hi fun hin => hn ⟨k, Nat.lt_succ_self k, hin⟩]
    exact h.left i hi fun ⟨j, hj, hij⟩ => hn ⟨j, Nat.lt_succ_of_lt hj, hij⟩
  · intro x hx
    rw [hmem]
    exact hrest x hx
  · rw [hrun, hcounter]
    by_cases hlast : k + 1 = N
    · rw [if_pos hlast, if_pos (by rw [hlast, Nat.sub_self]; rfl)]
    · rw [if_neg hlast, if_neg fun h0 => ?_]
      have : (N - (k + 1)) % 2 ^ 32 = 0 := by rw [← BitVec.toNat_ofNat, h0]; rfl
      omega

/-- **The rounds up to the last.** -/
theorem Copying.run (page : U32 → U32) {cr0 esp : U32} (hl : Loop m cr0 src dst S N) : ∀ {k : Nat} {d : Cpu},
    Copying m cr0 esp src dst S N k d → k < N → ∃ d', Copying m cr0 esp src dst S N N d' ∧ ∀ n,
      runFrom page copyPagePhysical (n + 6 * (N - k)) 9 d = runFrom page copyPagePhysical n 15 d'
  | k, d, h, hk => by
    obtain ⟨d₁, h₁, hrun⟩ := h.round page hl hk
    by_cases hlast : k + 1 = N
    · refine ⟨d₁, by rwa [hlast] at h₁, fun n => ?_⟩
      rw [show n + 6 * (N - k) = n + 6 by omega, hrun, if_pos hlast]
    · obtain ⟨d', h', hrun'⟩ := Copying.run page hl h₁ (by omega)
      refine ⟨d', h', fun n => ?_⟩
      rw [show n + 6 * (N - k) = n + 6 * (N - (k + 1)) + 6 by omega, hrun, if_neg hlast, hrun']
  termination_by k => N - k

/-! ## The call and the return -/

theorem offset_add (E : U32) (i k : Nat) : E - 8 + BitVec.ofNat 32 i + BitVec.ofNat 32 k =
    E - 8 + BitVec.ofNat 32 (i + k) := by
  rw [BitVec.add_assoc, ← BitVec.ofNat_add]

/-- What is in memory after the two pushes. -/
structure Saved (page : U32 → U32) (c : Cpu) (m : Mem) : Prop where
  flags : load (fun x => m (c.phys page x)) (c.reg .esp - 8) = c.eflags
  ebx : load (fun x => m (c.phys page x)) (c.reg .esp - 4) = c.reg .ebx
  rest : ∀ x, (∀ i, i < 8 → x ≠ stackByte page c i) → m x = c.mem x

theorem PageCall.save (h : PageCall page c src dst) :
    Saved page c ((c.push page (c.reg .ebx)).push page c.eflags).mem := by
  have h4 : ∀ k, c.phys page (c.reg .esp - 4 + BitVec.ofNat 32 k) = stackByte page c (4 + k) := fun k => by
    unfold stackByte
    rw [← offset_add]
    exact congrArg (fun a => c.phys page (a + BitVec.ofNat 32 k)) (by bv_omega)
  obtain ⟨c1, hc1⟩ : ∃ c1, c.push page (c.reg .ebx) = c1 := ⟨_, rfl⟩
  have hphys : c1.phys page = c.phys page := by
    rw [← hc1]
    rfl
  have hesp : c1.reg .esp - 4 = c.reg .esp - 8 := by
    rw [← hc1]
    show c.reg .esp - 4 - 4 = _
    bv_omega
  have h8 : ∀ k, c1.phys page (c1.reg .esp - 4 + BitVec.ofNat 32 k) = stackByte page c k := fun k => by
    rw [hesp, hphys]
    rfl
  rw [hc1]
  refine ⟨?_, ?_, fun x hx => ?_⟩
  · have : (c1.push page c.eflags).readWord page (c1.reg .esp - 4) = c.eflags := readWord_push fun i j hi hj hij => by
      rw [h8, h8]
      exact h.stack i j (by omega) (by omega) hij
    rw [hesp] at this
    unfold readWord at this
    rwa [show (c1.push page c.eflags).phys page = c.phys page from hphys] at this
  · have hone : (c.push page (c.reg .ebx)).readWord page (c.reg .esp - 4) = c.reg .ebx :=
        readWord_push fun i j hi hj hij => by
      rw [h4, h4]
      exact h.stack (4 + i) (4 + j) (by omega) (by omega) (by omega)
    rw [hc1] at hone
    rw [← hone, ← hphys]
    refine @readWord_congr _ page c1 (c1.push page c.eflags) rfl fun k hk => push_apply_of_ne fun j hj => ?_
    rw [h8, hphys, h4]
    exact h.stack (4 + k) j (by omega) (by omega) (by omega)
  · rw [push_apply_of_ne fun k hk => by rw [h8]; exact hx k (by omega), ← hc1,
      push_apply_of_ne fun k hk => by rw [h4]; exact hx (4 + k) (by omega)]

/-- **The loop is entered**, with the paging off. -/
structure Entered (page : U32 → U32) (c : Cpu) (src dst : U32) (d : Cpu) : Prop where
  saved : Saved page c d.mem
  cr0 : d.cr0 = c.cr0 &&& c.readWord page 0x7FFFFFFF
  esp : d.reg .esp = c.reg .esp - 8
  ebx : d.reg .ebx = src
  ecx : d.reg .ecx = dst
  edx : d.reg .edx = load c.mem 1024

theorem Saved.readWord (h : Saved page c d.mem) (hcr0 : d.cr0 = c.cr0)
    (ha : ∀ k i, k < 4 → i < 8 → c.phys page (a + BitVec.ofNat 32 k) ≠ stackByte page c i) :
    d.readWord page a = c.readWord page a :=
  readWord_congr hcr0 fun k hk => h.rest _ fun i hi => ha k i hk hi

theorem PageCall.above (h : PageCall page c src dst) (hm : Saved page c d.mem) (hcr0 : d.cr0 = c.cr0) {j : Nat}
    (hj : 8 ≤ j ∧ j + 4 ≤ 20) (ha : a = c.reg .esp - 8 + BitVec.ofNat 32 j) : d.readWord page a = c.readWord page a :=
  hm.readWord hcr0 fun k i hk hi => by
    rw [ha, offset_add]
    exact h.stack (j + k) i (by omega) (by omega) (by omega)

theorem PageCall.enter (h : PageCall page c src dst) (ho : InPage page c dst) :
    ∃ d, Entered page c src dst d ∧
      ∀ n, runFrom page copyPagePhysical (n + 9) 0 c = runFrom page copyPagePhysical n 9 d := by
  have hsave := h.save
  obtain ⟨hsrc, hdst⟩ := h.arguments
  obtain ⟨mask, hmask⟩ : ∃ mask, c.readWord page 0x7FFFFFFF = mask := ⟨_, rfl⟩
  have hoff := ho.off
  rw [hmask] at hoff
  obtain ⟨c1, hc1⟩ : ∃ c1, c1 = c.push page (c.reg .ebx) := ⟨_, rfl⟩
  obtain ⟨c2, hc2⟩ : ∃ c2, c2 = c1.push page c.eflags := ⟨_, rfl⟩
  rw [← hc1, ← hc2] at hsave
  have hcr0 : c2.cr0 = c.cr0 := by
    rw [hc2, hc1]
    rfl
  have hesp : c2.reg .esp = c.reg .esp - 8 := by
    rw [hc2, hc1]
    show c.reg .esp - 4 - 4 = _
    bv_omega
  obtain ⟨c3, hc3⟩ : ∃ c3, c3 = { c2 with eflags := c2.eflags &&& ~~~bitIF } := ⟨_, rfl⟩
  obtain ⟨c4, hc4⟩ : ∃ c4, c4 = c3.setReg .ebx src := ⟨_, rfl⟩
  obtain ⟨c5, hc5⟩ : ∃ c5, c5 = c4.setReg .ecx dst := ⟨_, rfl⟩
  obtain ⟨c6, hc6⟩ : ∃ c6, c6 = c5.setReg .edx c.cr0 := ⟨_, rfl⟩
  obtain ⟨c7, hc7⟩ : ∃ c7, c7 = (c6.setReg .edx (c.cr0 &&& mask)).setZF (c.cr0 &&& mask) := ⟨_, rfl⟩
  obtain ⟨c8, hc8⟩ : ∃ c8, c8 = { c7 with cr0 := c.cr0 &&& mask } := ⟨_, rfl⟩
  have hm3 : c3.mem = c2.mem ∧ c3.cr0 = c.cr0 ∧ c3.reg .esp = c.reg .esp - 8 := by
    rw [hc3]
    exact ⟨rfl, hcr0, hesp⟩
  have hm4 : c4.mem = c2.mem ∧ c4.cr0 = c.cr0 ∧ c4.reg .esp = c.reg .esp - 8 := by
    rw [hc4]
    exact hm3
  have hm6 : c6.mem = c2.mem ∧ c6.cr0 = c.cr0 ∧ c6.reg .edx = c.cr0 := by
    rw [hc6, hc5]
    exact ⟨hm4.1, hm4.2.1, rfl⟩
  have hm8 : c8.mem = c2.mem := by
    rw [hc8, hc7]
    exact hm6.1
  have x1 : c.exec page (.push (.reg .ebx)) = some c1 := by rw [hc1]; rfl
  have x2 : c1.exec page .pushf = some c2 := by rw [hc2, hc1]; rfl
  have x3 : c2.exec page .cli = some c3 := by rw [hc3]; rfl
  have x4 : c3.exec page (.mov (.ind 12 .esp) (.reg .ebx)) = some c4 := by
    have : c3.readWord page (c3.reg .esp + 12) = src := by
      rw [hm3.2.2, show c.reg .esp - 8 + 12 = c.reg .esp + 4 by bv_omega, ← hsrc]
      exact h.above (by rwa [hm3.1]) hm3.2.1 (j := 12) (by omega) (by bv_omega)
    rw [hc4, ← this]
    rfl
  have x5 : c4.exec page (.mov (.ind 16 .esp) (.reg .ecx)) = some c5 := by
    have : c4.readWord page (c4.reg .esp + 16) = dst := by
      rw [hm4.2.2, show c.reg .esp - 8 + 16 = c.reg .esp + 8 by bv_omega, ← hdst]
      exact h.above (by rwa [hm4.1]) hm4.2.1 (j := 16) (by omega) (by bv_omega)
    rw [hc5, ← this]
    rfl
  have x6 : c5.exec page (.mov .cr0 (.reg .edx)) = some c6 := by
    rw [hc6, ← hm4.2.1, hc5]
    rfl
  have x7 : c6.exec page (.and (.mem 0x7FFFFFFF) (.reg .edx)) = some c7 := by
    have : c6.readWord page 0x7FFFFFFF = mask := by
      rw [← hmask]
      exact Saved.readWord (by rwa [hm6.1]) hm6.2.1 fun k i hk hi => ((ho.stack i k hi hk).2.2.2).symm
    rw [hc7, ← this, ← hm6.2.2]
    rfl
  have x8 : c7.exec page (.mov (.reg .edx) .cr0) = some c8 := by
    rw [hc8]
    exact exec_mov_cr0 (by rw [hc7]; rfl) fun hp => hp.1 hoff
  have x9 : c8.exec page (.mov (.mem 1024) (.reg .edx)) = some (c8.setReg .edx (load c.mem 1024)) := by
    have : c8.readWord page 1024 = load c.mem 1024 := by
      rw [readWord_off (by rw [hc8]; exact hoff), hm8]
      exact load_eq_iff.2 fun k hk => hsave.rest _ fun i hi => ((ho.stack i k hi hk).2.1).symm
    rw [← this]
    rfl
  refine ⟨c8.setReg .edx (load c.mem 1024), ⟨by show Saved page c c8.mem; rwa [hm8], ?_, ?_, ?_, ?_, rfl⟩, fun n => ?_⟩
  · rw [hmask, hc8]
    rfl
  · rw [← hm4.2.2, hc8, hc7, hc6, hc5]
    rfl
  · rw [hc8, hc7, hc6, hc5, hc4]
    rfl
  · rw [hc8, hc7, hc6, hc5]
    rfl
  · rw [runFrom_op rfl x1, runFrom_op rfl x2, runFrom_op rfl x3, runFrom_op rfl x4, runFrom_op rfl x5,
      runFrom_op rfl x6,
      runFrom_op rfl x7, runFrom_op rfl x8, runFrom_op rfl x9]

/-- The word that is to restore `CR0`. -/
def restored (d : Cpu) : U32 := d.cr0 ||| load d.mem 0x80000000

theorem execRestore (page : U32 → U32) (hoff : d.cr0 &&& bitPG = 0) :
    ∃ d', d'.mem = d.mem ∧ d'.reg .esp = d.reg .esp ∧ d'.reg .edx = restored d ∧
      ∀ n, runFrom page copyPagePhysical (n + 2) 15 d = runFrom page copyPagePhysical n 17 d' := by
  obtain ⟨d1, hd1⟩ : ∃ d1, d1 = d.setReg .edx d.cr0 := ⟨_, rfl⟩
  obtain ⟨d2, hd2⟩ : ∃ d2, d2 = (d1.setReg .edx (restored d)).setZF (restored d) := ⟨_, rfl⟩
  have x1 : d.exec page (.mov .cr0 (.reg .edx)) = some d1 := by rw [hd1]; rfl
  have x2 : d1.exec page (.or (.mem 0x80000000) (.reg .edx)) = some d2 := by
    have : d1.reg .edx ||| d1.readWord page 0x80000000 = restored d := by
      rw [readWord_off (by rw [hd1]; exact hoff), hd1]
      rfl
    rw [hd2, ← this]
    rfl
  refine ⟨d2, ?_, ?_, ?_, fun n => by rw [runFrom_op rfl x1, runFrom_op rfl x2]⟩
  all_goals
    rw [hd2, hd1]
    rfl

/-- What the stack holds when `d.reg .edx` is in `CR0` goes back to `EFLAGS`, `EBX` and `EIP`. -/
theorem execLeave (page : U32 → U32) (h : ¬ (d.reg .edx &&& bitPG ≠ 0 ∧ d.reg .edx &&& bitPE = 0)) :
    ∃ c' d' : Cpu, (∀ n, runFrom page copyPagePhysical (n + 4) 17 d = some c') ∧
      d'.mem = d.mem ∧ d'.cr0 = d.reg .edx ∧ c'.mem = d.mem ∧ c'.cr0 = d.reg .edx ∧
      c'.reg .esp = d.reg .esp + 4 + 4 + 4 ∧ c'.eflags = d'.readWord page (d.reg .esp) ∧
      c'.reg .ebx = d'.readWord page (d.reg .esp + 4) ∧ c'.eip = d'.readWord page (d.reg .esp + 4 + 4) := by
  obtain ⟨d1, hd1⟩ : ∃ d1, d1 = { d with cr0 := d.reg .edx } := ⟨_, rfl⟩
  obtain ⟨d2, hd2⟩ : ∃ d2, d2 = { d1.drop 4 with eflags := d1.top page } := ⟨_, rfl⟩
  obtain ⟨d3, hd3⟩ : ∃ d3, d3 = (d2.drop 4).setReg .ebx (d2.top page) := ⟨_, rfl⟩
  have x1 : d.exec page (.mov (.reg .edx) .cr0) = some d1 := by rw [hd1]; exact exec_mov_cr0 rfl h
  have x2 : d1.exec page .popf = some d2 := by rw [hd2]; rfl
  have x3 : d2.exec page (.pop (.reg .ebx)) = some d3 := by rw [hd3]; rfl
  refine ⟨{ d3.drop 4 with eip := d3.top page }, d1, fun n => ?_, ?_, ?_, ?_, ?_, ?_, ?_, ?_, ?_⟩
  · rw [runFrom_op rfl x1, runFrom_op rfl x2, runFrom_op rfl x3, runFrom_ret rfl]
  · rw [hd1]
  · rw [hd1]
  all_goals
    rw [hd3, hd2, hd1]
    rfl

theorem PageCall.onStack (h : PageCall page c src dst) (hcr0 : d.cr0 = c.cr0)
    (hd : ∀ x, ¬ InRange dst 4096 x → d.mem x = m x) {j : Nat} (hj : j + 4 ≤ 12)
    (ha : a = c.reg .esp - 8 + BitVec.ofNat 32 j) : d.readWord page a = load (fun x => m (c.phys page x)) a := by
  have hphys : d.phys page = c.phys page := funext fun y => by
    unfold phys
    rw [hcr0]
  unfold Cpu.readWord
  rw [hphys]
  refine load_eq_iff.2 fun k hk => hd _ ?_
  rw [ha, offset_add]
  exact h.stackDst (j + k) (by omega)

/-- **The way out**: where the mask restores `CR0`, the registers come back. -/
theorem PageCall.leave (h : PageCall page c src dst) (hm : Saved page c m) (hoff : d.cr0 &&& bitPG = 0)
    (hesp : d.reg .esp = c.reg .esp - 8) (hd : ∀ x, ¬ InRange dst 4096 x → d.mem x = m x) (hr : restored d = c.cr0) :
    ∃ c', c'.mem = d.mem ∧ c'.reg .ebx = c.reg .ebx ∧ c'.eflags = c.eflags ∧ c'.cr0 = c.cr0 ∧
      c'.eip = c.readWord page (c.reg .esp) ∧ c'.reg .esp = c.reg .esp + 4 ∧
      ∀ n, runFrom page copyPagePhysical (n + 6) 15 d = some c' := by
  obtain ⟨d1, hm1, hesp1, hedx, hrun⟩ := execRestore page hoff
  obtain ⟨c', d2, hrun', hm2, hcr2, hmem, hcr, hesp', hflags, hebx, heip⟩ :=
    execLeave page (by rw [hedx, hr]; exact h.cr0)
  rw [hesp1, hesp] at hesp' hflags hebx heip
  rw [hedx, hr] at hcr2 hcr
  have hd2 : ∀ x, ¬ InRange dst 4096 x → d2.mem x = m x := fun x hx => by
    rw [hm2, hm1]
    exact hd x hx
  have h4 : c.reg .esp - 8 + 4 = c.reg .esp - 4 := by bv_omega
  have h8 : c.reg .esp - 8 + 4 + 4 = c.reg .esp := by bv_omega
  refine ⟨c', hmem.trans hm1, ?_, ?_, hcr, ?_, ?_, fun n => by rw [hrun, hrun']⟩
  · rw [hebx, h4, h.onStack (j := 4) hcr2 hd2 (by omega) (by bv_omega), hm.ebx]
  · rw [hflags, h.onStack (j := 0) hcr2 hd2 (by omega) (BitVec.add_zero _).symm, hm.flags]
  · rw [heip, h8, h.onStack (j := 8) hcr2 hd2 (by omega) (by bv_omega)]
    refine load_eq_iff.2 fun k hk => hm.rest _ fun i hi => ?_
    have := h.stack (8 + k) i (by omega) (by omega) (by omega)
    unfold stackByte at this
    rw [← offset_add] at this
    rwa [show c.reg .esp - 8 + BitVec.ofNat 32 8 = c.reg .esp by bv_omega] at this
  · rw [hesp', h8]

/-- A return leaves in `CR0` what the mask makes of it, and the memory as it was behind the loop. -/
theorem left_of_return (hoff : d.cr0 &&& bitPG = 0) {c' : Cpu} {n : Nat}
    (h : runFrom page copyPagePhysical (n + 6) 15 d = some c') : c'.cr0 = restored d ∧ c'.mem = d.mem := by
  obtain ⟨d1, hm1, -, hedx, hrun⟩ := execRestore page hoff
  rw [hrun] at h
  by_cases hfault : d1.reg .edx &&& bitPG ≠ 0 ∧ d1.reg .edx &&& bitPE = 0
  · rw [runFrom_fault rfl (exec_mov_cr0_fault hfault)] at h
    cases h
  · obtain ⟨c₁, -, hrun', -, -, hmem, hcr, -⟩ := execLeave page hfault
    rw [hrun'] at h
    cases h
    exact ⟨hcr.trans hedx, hmem.trans hm1⟩

/-- **The page is copied**, where the loop stays within it, exactly when the masks restore `CR0` and the bytes that no
round reaches are equal already. -/
theorem copy_page (h : PageCall page c src dst) (ho : InPage page c dst) : CopiesPage page c src dst ↔
    c.cr0 &&& c.readWord page 0x7FFFFFFF ||| load c.mem 0x80000000 = c.cr0 ∧
    ∀ i, i < 4096 → ¬ Reached (load c.mem 4).toNat (rounds (load c.mem 1024)) i →
      c.mem (dst + BitVec.ofNat 32 i) = c.mem (src + BitVec.ofNat 32 i) := by
  obtain ⟨S, hS⟩ : ∃ S, (load c.mem 4).toNat = S := ⟨_, rfl⟩
  obtain ⟨N, hN⟩ : ∃ N, rounds (load c.mem 1024) = N := ⟨_, rfl⟩
  obtain ⟨hsf, hdf⟩ := h.fits
  have hlast := ho.last
  have hpos : 0 < N ∧ N ≤ 2 ^ 32 ∧ load c.mem 1024 = BitVec.ofNat 32 N := by
    unfold rounds at hN
    have := (load c.mem 1024).isLt
    split at hN
    · next h0 => exact ⟨by omega, by omega, by rw [h0, ← hN]; rfl⟩
    · next h0 =>
      refine ⟨Nat.pos_of_ne_zero fun hz => h0 (BitVec.eq_of_toNat_eq (hN.trans hz)), by omega, ?_⟩
      rw [← hN, BitVec.ofNat_toNat, BitVec.setWidth_eq]
  rw [hS, hN] at hlast ⊢
  obtain ⟨d, hd, henter⟩ := h.enter ho
  have hloop : Loop d.mem (c.cr0 &&& c.readWord page 0x7FFFFFFF) src dst S N := by
    refine ⟨ho.off, h.fits, h.apart, ?_, hlast, hpos.2.1, fun k hk => (ho.apart k hk).1⟩
    have : load d.mem 4 = load c.mem 4 :=
      load_eq_iff.2 fun k hk => hd.saved.rest _ fun i hi => ((ho.stack i k hi hk).1).symm
    rw [this, ← hS, BitVec.ofNat_toNat, BitVec.setWidth_eq]
  have hstart : Copying d.mem (c.cr0 &&& c.readWord page 0x7FFFFFFF) (c.reg .esp - 8) src dst S N 0 d := by
    refine ⟨hd.cr0, hd.esp, ?_, ?_, ?_, fun i _ ⟨j, hj, _⟩ => absurd hj (Nat.not_lt_zero j), fun i _ _ => rfl,
      fun x _ => rfl⟩
    · rw [hd.ebx, Nat.zero_mul]
      exact (BitVec.add_zero src).symm
    · rw [hd.ecx, Nat.zero_mul]
      exact (BitVec.add_zero dst).symm
    · rw [hd.edx, Nat.sub_zero, hpos.2.2]
  obtain ⟨d', hd', hrun⟩ := Copying.run page hloop hstart hpos.1
  have hoff : d'.cr0 &&& bitPG = 0 := by rw [hd'.cr0, ho.off]
  have hrestored : restored d' = c.cr0 &&& c.readWord page 0x7FFFFFFF ||| load c.mem 0x80000000 := by
    have : load d'.mem 0x80000000 = load c.mem 0x80000000 := load_eq_iff.2 fun k hk =>
      (hd'.rest _ (ho.apart k hk).2).trans (hd.saved.rest _ fun i hi => ((ho.stack i k hi hk).2.2.1).symm)
    unfold restored
    rw [hd'.cr0, this]
  -- the pushes are apart from both pages
  have hsaved : ∀ {p : U32} {i : Nat}, p.toNat + 4096 ≤ 2 ^ 32 → (∀ j, j < 8 → ¬ InRange p 4096 (stackByte page c j)) →
      i < 4096 → d.mem (p + BitVec.ofNat 32 i) = c.mem (p + BitVec.ofNat 32 i) := fun {p i} hp hpush hi =>
    hd.saved.rest _ fun j hj he => hpush j hj (by
      rw [← he]
      unfold InRange
      rw [toNat_add_ofNat (by omega)]
      omega)
  have hsrc := fun {i} => hsaved (i := i) hsf h.stackSrc
  have hdst := fun {i} => hsaved (i := i) hdf fun j hj => h.stackDst j (by omega)
  constructor
  · rintro ⟨c', steps, hsteps, hcopy, -, -, -, hcr0, -⟩
    have hall := hsteps (steps + 6 + 6 * (N - 0) + 9) (by omega)
    rw [henter, hrun] at hall
    obtain ⟨hcr, hmem⟩ := left_of_return hoff hall
    refine ⟨by rw [← hrestored, ← hcr, hcr0], fun i hi hn => ?_⟩
    rw [← hcopy i hi, hmem, hd'.left i hi hn, hdst hi]
  · rintro ⟨hcr0, heq⟩
    obtain ⟨c', hmem, hebx, hflags, hcr, heip, hesp, hleave⟩ :=
      h.leave hd.saved hoff hd'.esp hd'.rest (hrestored.trans hcr0)
    refine ⟨c', 6 * N + 15, fun fuel hf => ?_, fun i hi => ?_, fun x hx hst => ?_, hebx, hflags, hcr, heip, hesp⟩
    · obtain ⟨n, rfl⟩ : ∃ n, fuel = n + 6 + 6 * (N - 0) + 9 := ⟨fuel - (6 * N + 15), by omega⟩
      rw [henter, hrun, hleave]
    · rw [hmem]
      by_cases hreach : Reached S N i
      · rw [hd'.copied i hi hreach, hsrc hi]
      · rw [hd'.left i hi hreach, hdst hi, heq i hi hreach]
    · rw [hmem, hd'.rest x hx, hd.saved.rest x hst]

/-- A call with the stack at 0x5000 and the paging on. -/
def pageCall (m : Mem) : Cpu where
  reg r := if r = .esp then 0x5000 else 0
  sreg _ := 0x10
  eip := 0
  eflags := 0x202
  cr0 := 0x80000011
  mem := m

theorem toNat_stackByte (m : Mem) {i : Nat} (hi : i < 20) : (stackByte id (pageCall m) i).toNat = 0x4FF8 + i := by
  have hesp : ((pageCall m).reg .esp - 8).toNat = 0x4FF8 := by
    show ((0x5000 : U32) - 8).toNat = _
    decide
  unfold stackByte
  rw [phys_id, toNat_add_ofNat (by omega), hesp]

theorem pageCall_call (h : load m 0x5004 = 0x2000 ∧ load m 0x5008 = 0x3000) :
    PageCall id (pageCall m) 0x2000 0x3000 := by
  have hout : ∀ (p : U32) {i : Nat}, p.toNat + 4096 ≤ 0x4FF8 → i < 20 →
      ¬ InRange p 4096 (stackByte id (pageCall m) i) :=
    fun p i hp hi h => by
      unfold InRange at h
      rw [toNat_stackByte m hi] at h
      omega
  refine ⟨?_, by decide, by decide, fun h => absurd h.2 (by show (0x80000011 : U32) &&& bitPE ≠ 0; decide),
    fun i j hi hj hij he => ?_, fun i hi => hout _ (by decide) (by omega), fun i hi => hout _ (by decide) (by omega)⟩
  · rwa [readWord_id, readWord_id]
  · have := congrArg BitVec.toNat he
    rw [toNat_stackByte m hi, toNat_stackByte m hj] at this
    omega

/-- The arguments at 0x5004, and the operands as words in memory. -/
def operandWords : Mem := fun x =>
  if x = 0x5005 then 0x20 else if x = 0x5009 then 0x30 else
  if x = 4 then 4 else if x = 1025 then 4 else if x = 0x7FFFFFFF then 0x11 else if x = 0x80000003 then 0x80 else 0

theorem copy_page_words : CopiesPage id (pageCall operandWords) 0x2000 0x3000 := by
  have hcall : PageCall id (pageCall operandWords) 0x2000 0x3000 := pageCall_call ⟨by decide, by decide⟩
  have hin : InPage id (pageCall operandWords) 0x3000 := by
    refine ⟨by decide, by decide, by unfold InRange; decide, fun i k hi hk => ?_⟩
    have := toNat_stackByte operandWords (i := i) (by omega)
    have hne : ∀ a : U32, (a + BitVec.ofNat 32 k).toNat < 0x4FF8 ∨ 0x5000 ≤ (a + BitVec.ofNat 32 k).toNat →
        stackByte id (pageCall operandWords) i ≠ a + BitVec.ofNat 32 k := fun a ha he => by
      rw [← he] at ha
      omega
    refine ⟨hne _ (Or.inl ?_), hne _ (Or.inl ?_), hne _ (Or.inr ?_), ?_⟩
    · rw [toNat_add_ofNat (by show 4 + k < _; omega)]
      show 4 + k < _
      omega
    · rw [toNat_add_ofNat (by show 1024 + k < _; omega)]
      show 1024 + k < _
      omega
    · rw [toNat_add_ofNat (by show 0x80000000 + k < _; omega)]
      show _ ≤ 0x80000000 + k
      omega
    · rw [phys_id]
      refine hne _ (Or.inr ?_)
      rw [toNat_add_ofNat (by show 0x7FFFFFFF + k < _; omega)]
      show _ ≤ 0x7FFFFFFF + k
      omega
  refine (copy_page hcall hin).2 ⟨by decide, fun i hi hn => absurd ⟨i / 4, ?_, ?_⟩ hn⟩
  · show i / 4 < 1024
    omega
  · show i / 4 * 4 ≤ i ∧ i < i / 4 * 4 + 4
    omega

/-- The arguments, the count 1, and zeros. -/
def oneRound : Mem := fun x => if x = 0x5005 then 0x20 else if x = 0x5009 then 0x30 else if x = 1024 then 1 else 0

/-- One round, and masks that are zero: paging and protection stay off. -/
theorem copy_page_differs : PageCall id (pageCall oneRound) 0x2000 0x3000 ∧
    ¬ CopiesPage id (pageCall oneRound) 0x2000 0x3000 := by
  refine ⟨pageCall_call ⟨by decide, by decide⟩, fun ⟨c', steps, hrun, _, _, _, _, hcr0, _⟩ => ?_⟩
  have hzero : (runFrom id copyPagePhysical (steps + 21) 0 (pageCall oneRound)).map Cpu.cr0 = some 0 := rfl
  rw [hrun _ (by omega)] at hzero
  exact absurd ((Option.some.inj hzero).symm.trans hcr0) (by decide)

end Loris
