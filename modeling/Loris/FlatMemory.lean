import Loris.KernelMain
/-!
# FlatMemory — the running kernel works on one flat memory

The calls are modelled on one memory, indexed by the addresses that the code uses; on the machine each access goes
through the tables of the current directory.  From the end of `kernel_main` on the two are the same (`memory_flat`): in
every state, stores through the tables of all directories show through each of them as stores to one memory; from one
state to the next what is mapped stays where it is; and what a call changes is mapped, as long as the heap grows by
whole pages.
-/
namespace Loris

open ByteMem Runs Kernel

namespace System

open Ramdisk

variable {m : Mem} {st : Storage} {s t : System} {location direntry d x : U32} {size top n : Nat} {files : List File}
  {op : SystemOp}

/-- A directory of the kernel. -/
def IsDir (s : System) (d : U32) : Prop := s.forking.spaces.IsDir d

/-- Each growth of the heap that the call makes is one of whole pages. -/
def WholePages (s : System) : SystemOp → Prop
  | .kernel op => s.forking.WholePages op
  | .file _ => True

theorem Serving.translate (h : Serving m st location size files top s) (hd : s.IsDir d) (x : U32) :
    translate s.kernel d x = translate s.kernel s.kernel.kernel_directory x := by
  obtain ⟨segs, hsh⟩ := h.inv.sharing
  exact Spaces.translate_congr (hsh.same hd (tableIndex_lt x))

/-- A byte of a block of the heap. -/
theorem Serving.inHeap (h : Serving m st location size files top s) {b : U32 × U32}
    (hb : b ∈ s.forking.spaces.heap.live) (hlo : b.1.toNat ≤ x.toNat) (hhi : x.toNat < b.1.toNat + b.2.toNat) :
    0xC0000000 ≤ x.toNat ∧ x.toNat < s.kernel.heap.endAddress.toNat := by
  obtain ⟨segs, hsh⟩ := h.inv.sharing
  have hbelow : b.1.toNat + b.2.toNat ≤ s.kernel.heap.endAddress.toNat := hsh.tiled.safe.below b hb
  have hblock := (h.inv.block hb).1
  exact ⟨by omega, by omega⟩

/-- **An allowed call** keeps the frames apart and what is mapped in place. -/
theorem Serving.backs (h : Serving m st location size files top s) (hb : s.kernel.Backed n) (hn : n ≤ 0xC0000)
    (hok : Allowed st location size files.length top s op) (hstep : s.Step direntry op t) :
    Backs s.kernel t.kernel n (s.WholePages op) := by
  cases op with
  | kernel op => exact h.inv.backs hb hn hok.1 hstep.1
  | file call =>
    have hpages : SamePages s.kernel t.kernel := by
      unfold System.kernel
      rw [hstep.2]
      exact Forking.samePages_withMem ..
    exact .of_heap hb (by omega) hpages.same hpages.bounds

/-- The frames stay apart along a run, and the heap stays mapped. -/
theorem Up.run (h : t.Up st location direntry size files top) (htop : top ≤ kheapStart.toNat)
    (hlow : location.toNat + size ≤ top) (hentry : direntry.toNat + 132 ≤ top) :
    ∃ m n, Image m location size files ∧ top ≤ 0x1000 * n ∧ n ≤ 3840 ∧ ∀ ops u, Reaches (Step direntry) t ops u →
      Guarded (Step direntry) (Allowed st location size files.length top) t ops →
        (Serving m st location size files top u ∧ u.kernel.Backed n) ∧
          (Guarded (Step direntry) WholePages t ops → u.kernel.Filled) := by
  obtain ⟨m, him, hserving⟩ := h.serving
  obtain ⟨n, hcover, hn, hb, hfill⟩ := h.backed
  have hstep : ∀ v op w, Serving m st location size files top v → v.kernel.Backed n →
      Allowed st location size files.length top v op → v.Step direntry op w →
        Serving m st location size files top w ∧ Backs v.kernel w.kernel n (v.WholePages op) :=
    fun v op w hv hvb hok hvw =>
      ⟨hv.step him h.storage h.entry hlow hentry htop hok hvw, hv.backs hvb (by omega) hok hvw⟩
  refine ⟨m, n, him, hcover, hn, fun ops u hr hg => ⟨?_, fun hwhole => ?_⟩⟩
  · refine (hg.along (p := fun v => Serving m st location size files top v ∧ v.kernel.Backed n)
      (fun v op w hv hok hvw => ?_) ⟨hserving, hb⟩).last hr
    obtain ⟨hw, hbacks⟩ := hstep v op w hv.1 hv.2 hok hvw
    exact ⟨hw, hbacks.backed⟩
  · refine ((hg.and hwhole).along
      (p := fun v => (Serving m st location size files top v ∧ v.kernel.Backed n) ∧ v.kernel.Filled)
      (fun v op w hv hok hvw => ?_) ⟨⟨hserving, hb⟩, hfill⟩).last hr |>.2
    obtain ⟨hw, hbacks⟩ := hstep v op w hv.1.1 hv.1.2 hok.1 hvw
    exact ⟨⟨hw, hbacks.backed⟩, hbacks.filled hv.2 hok.2⟩

end System

end Loris
