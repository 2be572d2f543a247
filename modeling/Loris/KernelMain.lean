import Loris.Backing
import Loris.Mounting
/-!
# KernelMain — from the boot to a mounted file system, and on

`kernel_main` takes the ramdisk from the boot loader, sets the placement address behind it, and calls
`initialise_paging`, `initialise_tasking`, `fork` and `initialise_initrd` in turn.  From there on the calls of the file
system go on in any order with those of the heap, of `clone_directory`, of `fork` and of `switch_task`, over one memory:
none of them spoils what another rests on, and every call of the file system answers from the files
(`kernel_main_serves`).

The memory is what the kernel's own tables show.  Interrupts come between the calls, and the child's own way through
`kernel_main` is left out.
-/
namespace Loris

open ByteMem Runs Kernel

/-- The kernel with its tasks and address spaces, and the globals of the file system.  The memory is the kernel's. -/
structure System where
  forking : Forking
  disk : Ramdisk

inductive SystemOp where
  | kernel (op : ForkingOp)
  | file (call : FsCall)

/-- `initialise_initrd` from `s`: it returns, with the heap's blocks for the root, `/dev` and the files. -/
def Forking.InitialiseInitrd (s : Forking) (d : Ramdisk) (location : U32) (t : System) : Prop :=
  ∃ k, (∃ steps, ∀ fuel, steps ≤ fuel →
      Kernel.initialiseInitrd (Kernel.alloc fuel) fuel s.kernel d location = some (t.disk, k)) ∧
    t.forking = ⟨⟨⟨k, (t.disk.root_nodes, sizeofFsNode * t.disk.nroot_nodes) :: (t.disk.initrd_dev, sizeofFsNode) ::
      (t.disk.initrd_root, sizeofFsNode) :: s.spaces.heap.live⟩, s.spaces.dirs⟩, s.tasks⟩

/-- `&mboot_ptr->mods_addr`. -/
def modsAddrOf (mboot_ptr : U32) : U32 := mboot_ptr + 24

/-- `kernel_main`, as the parent runs it; descriptor tables, handlers, the timer and the greeting apart. -/
def KernelMain (fuel : Nat) (k : Kernel) (mboot_ptr : U32) (tasks : TaskState) (d : Ramdisk) (t : System) : Prop :=
  let mods_addr := load k.mem (modsAddrOf mboot_ptr)
  let initrd_location := load k.mem mods_addr
  let initrd_end := load k.mem (mods_addr + 4)
  ∃ k₀ s u, (∃ steps, ∀ loops, steps ≤ loops →
      initialisePaging (Kernel.alloc (fuel + 1)) loops { k with placement_address := initrd_end } = some k₀) ∧
    Forking.InitialiseTasking k₀ tasks s ∧ s.Step .fork u ∧ u.InitialiseInitrd d initrd_location t

namespace System

def kernel (s : System) : Kernel := s.forking.kernel

/-- The file system over the kernel's memory. -/
def ramdisk (s : System) : Ramdisk := { s.disk with mem := s.kernel.mem }

/-- One call that returns. -/
def Step (direntry : U32) (s : System) : SystemOp → System → Prop
  | .kernel op, t => s.forking.Step op t.forking ∧ t.disk = s.disk
  | .file call, t => Ramdisk.FsStep direntry s.ramdisk call t.disk ∧ t.forking = s.forking.withMem t.disk.mem

/-- A byte that a caller may own: below `top`, or in a block of the heap that holds no directory, task or node. -/
def Owned (st : Storage) (top : Nat) (s : System) (x : U32) : Prop := x.toNat < top ∨
  ∃ b ∈ s.forking.spaces.heap.live, b.1.toNat ≤ x.toNat ∧ x.toNat < b.1.toNat + b.2.toNat ∧
    b.1 ∉ s.forking.spaces.dirs ∧ b.1 ∉ s.forking.tasks.created ∧ b.1 ≠ st.root ∧ b.1 ≠ st.dev ∧ b.1 ≠ st.nodes

/-- A byte that a call is to write for its caller. -/
def Touches (m : Mem) : FsCall → U32 → Prop
  | .read _ _ length buffer, x => buffer.toNat ≤ x.toNat ∧ x.toNat < buffer.toNat + length.toNat
  | .elsewhere m', x => m' x ≠ m x
  | _, _ => False

/-- **What callers keep to**: sound calls of the kernel that free no node, and proper calls of the file system that
write to what the callers own. -/
def Allowed (st : Storage) (location : U32) (size n top : Nat) (s : System) : SystemOp → Prop
  | .kernel op => s.forking.Sound op ∧ ∀ p, op = .call (.free p) → p ≠ st.root ∧ p ≠ st.dev ∧ p ≠ st.nodes
  | .file call => Ramdisk.Proper st location size n s.ramdisk call ∧ ∀ x, Touches s.kernel.mem call x → s.Owned st top x

end System

/-! ## What a call of the file system writes -/

namespace Ramdisk

variable {m : Mem} {st : Storage} {s t r : Ramdisk} {location direntry node index p : U32} {size : Nat}
  {files : List File} {call : FsCall}

/-- **What a call writes**: what its caller gives it to write, and the global entry. -/
theorem Mounted.writes (h : Mounted m st location size files s) (him : Image m location size files)
    (hp : Private st location size files.length) (he : EntryOutside st location size files.length direntry)
    (hc : Proper st location size files.length s call) (hstep : FsStep direntry s call t) {x : U32}
    (hx : t.mem x ≠ s.mem x) : System.Touches s.mem call x ∨
      direntry.toNat ≤ x.toNat ∧ x.toNat < direntry.toNat + 132 := by
  obtain ⟨a, hends⟩ := hstep
  obtain ⟨b, u, hu, hans, -⟩ := h.answers him hp he hc
  obtain ⟨rfl, rfl⟩ := hends.unique hu
  obtain ⟨steps, hrun⟩ := hends
  have hlast := hrun steps (Nat.le_refl _)
  cases call with
  | read node offset length buffer =>
    obtain ⟨rfl, rfl⟩ := Prod.mk.inj (Option.some.inj hlast)
    obtain ⟨hfile, hdir, hkeeps⟩ := hans
    generalize (s.readFs node offset length buffer).1 = n at hfile hdir hkeeps
    have hle : n.toNat ≤ length.toNat := by
      rcases hc.1.cases with hd | ⟨f, hf⟩
      · rw [hdir hd]
        exact Nat.zero_le _
      · have hlen := congrArg List.length (hfile f hf)
        rw [List.length_map, List.length_range, List.length_take] at hlen
        omega
    by_contra hno
    unfold System.Touches at hno
    exact hx (hkeeps x (by omega))
  | readdir node index =>
    obtain ⟨⟨p, r⟩, -, heq⟩ := Option.map_eq_some_iff.1 hlast
    obtain ⟨rfl, rfl⟩ := Prod.mk.inj heq
    have hreaddir : Readdir direntry s node index p r := ⟨steps, fun fuel hfuel => by
      obtain ⟨⟨q, r'⟩, hq, heq⟩ := Option.map_eq_some_iff.1 (hrun fuel hfuel)
      obtain ⟨hqp, rfl⟩ := Prod.mk.inj heq
      exact hq.trans (by rw [show q = p from FsAnswer.entry.inj hqp])⟩
    by_contra hno
    exact hx ((h.after him hp he.toEntry hreaddir).2 x (by omega))
  | finddir node name =>
    obtain ⟨p, -, heq⟩ := Option.map_eq_some_iff.1 hlast
    exact absurd (congrArg Ramdisk.mem (Prod.mk.inj heq).2).symm (fun he => hx (congrFun he x))
  | elsewhere m' =>
    obtain ⟨-, rfl⟩ := Prod.mk.inj (Option.some.inj hlast)
    exact .inl hx

end Ramdisk

/-! ## The invariant -/

namespace Forking

variable {s t : Forking} {top : Nat} {op : ForkingOp} {b : U32 × U32}

/-- **A block that is not freed stays live.** -/
theorem Inv.stays_live (h : s.Inv top) (hs : s.Sound op) (hstep : s.Step op t) (hb : b ∈ s.spaces.heap.live)
    (hfree : ∀ p, op = .call (.free p) → b.1 ≠ p) : b ∈ t.spaces.heap.live := by
  cases op with
  | call op =>
    obtain ⟨hstep, -⟩ := hstep
    cases op with
    | clone src =>
      obtain ⟨-, fuel, dir, copies, k', -, he⟩ := hstep
      rw [he]
      exact List.mem_append_right _ hb
    | alloc size al =>
      obtain ⟨⟨-, fuel, p, k', -, he⟩, -⟩ := hstep
      rw [he]
      exact List.mem_cons_of_mem _ hb
    | free p =>
      obtain ⟨⟨-, k', -, he⟩, -⟩ := hstep
      rw [he]
      exact List.mem_filter.2 ⟨hb, by simpa using hfree p rfl⟩
    | switch dir =>
      obtain ⟨-, he⟩ := hstep
      rw [he]
      exact hb
  | fork =>
    obtain ⟨m, resume, d, p, id, -, hf⟩ := hstep
    rw [(h.fork_leaves hs hf).2]
    exact List.mem_cons_of_mem _ (List.mem_cons_of_mem _ hb)
  | switch_task =>
    obtain ⟨-, -, he⟩ := hstep
    rw [he]
    exact hb

end Forking

namespace System

open Ramdisk

variable {m : Mem} {st : Storage} {s t : System} {location direntry : U32} {size top : Nat} {files : List File}
  {op : SystemOp} {call : FsCall}

/-- **The invariant of the system**: that of the kernel, and the ramdisk mounted on live blocks. -/
structure Serving (m : Mem) (st : Storage) (location : U32) (size : Nat) (files : List File) (top : Nat) (s : System) :
    Prop where
  inv : s.forking.Inv top
  elements : s.kernel.heap.index.elements = kheapStart
  live : ∀ b ∈ [(st.nodes, nodesSize files), (st.dev, sizeofFsNode), (st.root, sizeofFsNode)],
    b ∈ s.forking.spaces.heap.live
  mounted : Mounted m st location size files s.ramdisk

/-- What is below the heap's blocks is outside of the nodes. -/
theorem Serving.outside (h : Serving m st location size files top s) {p : U32} {len : Nat}
    (himage : Apart location.toNat size p.toNat len) (hlow : p.toNat + len ≤ 0xC0080000) :
    Outside st location size files.length p len := by
  obtain ⟨hnodes, -⟩ : 0xC0080000 ≤ st.nodes.toNat ∧ _ := h.inv.block (h.live _ (List.mem_cons_self ..))
  obtain ⟨hdev, -⟩ : 0xC0080000 ≤ st.dev.toNat ∧ _ := h.inv.block (h.live (st.dev, sizeofFsNode) (by simp))
  obtain ⟨hroot, -⟩ : 0xC0080000 ≤ st.root.toNat ∧ _ := h.inv.block (h.live (st.root, sizeofFsNode) (by simp))
  exact ⟨himage, .inr (by omega), .inr (by omega), .inr (by omega)⟩

/-- **A new block is its caller's**, and outside of image and nodes. -/
theorem Serving.new_block (h : Serving m st location size files top s) (hp : Private st location size files.length)
    (hlow : location.toNat + size ≤ 0xC0080000) (hfiles : 0 < files.length) {len p : U32} {f : Forking}
    (hk : s.forking.Kmalloc len p f) (hf : f.Inv top) (hlen : 0 < len.toNat) :
    Outside st location size files.length p len.toNat ∧ ∀ x : U32, p.toNat ≤ x.toNat →
      x.toNat < p.toNat + len.toNat → Owned st top ⟨f, s.disk⟩ x := by
  have hnew : (p, len) ∈ f.spaces.heap.live := by
    rw [hk.live]
    exact List.mem_cons_self ..
  have hblock : 0xC0080000 ≤ p.toNat := (hf.block hnew).1
  have hroom := hp.fits.2.2
  have hsize := toNat_nodesSize files (by
    have hne := hp.nonnull.2.2
    bv_omega)
  have hapart : ∀ {q n : U32}, (q, n) ∈ s.forking.spaces.heap.live → Apart q.toNat n.toNat p.toNat len.toNat :=
    fun hq => Or.symm (hk.apart hf hq)
  have hne : ∀ {q n : U32}, (q, n) ∈ s.forking.spaces.heap.live → 0 < n.toNat → p ≠ q := fun hq hn he => by
    have hap := hapart hq
    unfold Apart at hap
    rw [he] at hap
    omega
  have hnodes := h.live (st.nodes, nodesSize files) (by simp)
  have hdev := h.live (st.dev, sizeofFsNode) (by simp)
  have hroot := h.live (st.root, sizeofFsNode) (by simp)
  obtain ⟨segs, hsh⟩ := h.inv.sharing
  refine ⟨⟨.inl (by omega), hsize ▸ hapart hnodes, hapart hroot, hapart hdev⟩, fun x hlo hhi =>
    .inr ⟨_, hnew, hlo, hhi, fun hd => ?_, fun hd => ?_, hne hroot (by decide), hne hdev (by decide),
      hne hnodes (by omega)⟩⟩
  · exact hne (hsh.block p (hk.dirs ▸ hd)) (by decide) rfl
  · exact hne (h.inv.live p (hk.tasks ▸ hd)) (by decide) rfl

/-- What the kernel writes is neither in the image nor in the nodes. -/
theorem Serving.kernel (h : Serving m st location size files top s) (him : Image m location size files)
    (hp : Private st location size files.length) (hlow : location.toNat + size ≤ kheapStart.toNat) {op : ForkingOp}
    (hs : Allowed st location size files.length top s (.kernel op)) (hstep : s.Step direntry (.kernel op) t) :
    Serving m st location size files top t := by
  obtain ⟨hs, hfree⟩ := hs
  obtain ⟨hstep, hdisk⟩ := hstep
  have hl := h.inv.leaves hs hstep
  have hlive : ∀ b ∈ [(st.nodes, nodesSize files), (st.dev, sizeofFsNode), (st.root, sizeofFsNode)],
      b ∈ t.forking.spaces.heap.live := fun b hb => by
    refine h.inv.stays_live hs hstep (h.live b hb) fun p hp => ?_
    obtain ⟨h1, h2, h3⟩ := hfree p hp
    simp only [List.mem_cons, List.not_mem_nil, or_false] at hb
    rcases hb with rfl | rfl | rfl
    · exact h3.symm
    · exact h2.symm
    · exact h1.symm
  refine ⟨h.inv.step hs hstep, hl.confined.elements.trans h.elements, hlive, ?_⟩
  have hroom := hp.fits.2.2
  have hsize := toNat_nodesSize files (by
    have hne := hp.nonnull.2.2
    bv_omega)
  have hkept : Kept st location size files.length s.kernel.mem t.kernel.mem := fun x hx => by
    have hblock : ∀ b ∈ [(st.nodes, nodesSize files), (st.dev, sizeofFsNode), (st.root, sizeofFsNode)],
        b.1.toNat ≤ x.toNat → x.toNat < b.1.toNat + b.2.toNat → t.kernel.mem x = s.kernel.mem x :=
      fun b hb => hl.live b (h.live b hb) (hlive b hb) x
    rcases hx with ⟨-, hx⟩ | ⟨hx, hx'⟩ | ⟨hx, hx'⟩ | ⟨hx, hx'⟩
    · exact hl.confined.bytes x (by
        rw [show s.forking.spaces.heap.kernel.heap.index.elements = _ from h.elements]
        omega)
    · exact hblock _ (List.mem_cons_self ..) hx (by rw [hsize]; exact hx')
    · exact hblock (st.root, sizeofFsNode) (by simp) hx hx'
    · exact hblock (st.dev, sizeofFsNode) (by simp) hx hx'
  have hdisk' : t.ramdisk = { s.ramdisk with mem := t.kernel.mem } := by
    unfold System.ramdisk
    rw [hdisk]
  rw [hdisk']
  exact h.mounted.kept him hp hkept

/-- What a caller owns the heap does not look at. -/
theorem Owned.loose {x : U32} (h : s.Owned st top x) (htop : top ≤ kheapStart.toNat)
    (helem : s.kernel.heap.index.elements = kheapStart) : s.forking.spaces.heap.Loose x := by
  rcases h with hx | ⟨b, hb, h1, h2, -⟩
  · exact .inl (by
      rw [show s.forking.spaces.heap.kernel.heap.index.elements = _ from helem]
      omega)
  · exact .inr ⟨b, hb, h1, h2⟩

/-- What a call of the file system writes is not the heap's, and it answers. -/
theorem Serving.file (h : Serving m st location size files top s) (him : Image m location size files)
    (hp : Private st location size files.length) (he : EntryOutside st location size files.length direntry)
    (hentry : direntry.toNat + 132 ≤ top) (htop : top ≤ kheapStart.toNat)
    (hc : Allowed st location size files.length top s (.file call)) (hstep : s.Step direntry (.file call) t) :
    Serving m st location size files top t := by
  obtain ⟨hproper, howned⟩ := hc
  obtain ⟨hfs, hforking⟩ := hstep
  have hinv : t.forking.Inv top := by
    rw [hforking]
    refine h.inv.withMem fun x hx => Decidable.byContradiction fun hne => hx ?_
    rcases h.mounted.writes him hp he hproper hfs hne with htouch | ⟨-, hlt⟩
    · exact (howned x htouch).loose htop h.elements
    · exact (show s.Owned st top x from .inl (by omega)).loose htop h.elements
  refine ⟨hinv, ?_, ?_, ?_⟩
  · show t.forking.kernel.heap.index.elements = _
    rw [hforking]
    exact h.elements
  · rw [hforking]
    exact h.live
  · obtain ⟨a, u, hends, -, -, hm⟩ := h.mounted.answers him hp he hproper
    obtain ⟨b, hb⟩ := hfs
    obtain ⟨-, rfl⟩ := hends.unique hb
    have hmem : t.ramdisk = t.disk := by
      show ({ t.disk with mem := t.forking.kernel.mem } : Ramdisk) = t.disk
      rw [hforking, Forking.withMem_mem]
    rw [hmem]
    exact hm

/-- **An allowed call** keeps the invariant. -/
theorem Serving.step (h : Serving m st location size files top s) (him : Image m location size files)
    (hp : Private st location size files.length) (he : EntryOutside st location size files.length direntry)
    (hlow : location.toNat + size ≤ top) (hentry : direntry.toNat + 132 ≤ top) (htop : top ≤ kheapStart.toNat)
    (hok : Allowed st location size files.length top s op) (hstep : s.Step direntry op t) :
    Serving m st location size files top t := by
  cases op with
  | kernel op => exact h.kernel him hp (hlow.trans htop) hok hstep
  | file call => exact h.file him hp he hentry htop hok hstep

/-- **The invariant holds along every run** of allowed calls. -/
theorem Serving.run (h : Serving m st location size files top s) (him : Image m location size files)
    (hp : Private st location size files.length) (he : EntryOutside st location size files.length direntry)
    (hlow : location.toNat + size ≤ top) (hentry : direntry.toNat + 132 ≤ top) (htop : top ≤ kheapStart.toNat)
    {ops : List SystemOp} (hr : Reaches (Step direntry) s ops t)
    (hg : Guarded (Step direntry) (Allowed st location size files.length top) s ops) :
    Serving m st location size files top t :=
  (hg.along (fun _ _ _ hs hok hstep => hs.step him hp he hlow hentry htop hok hstep) h).last hr

end System

/-! ## The boot -/

theorem Image.congr {m m' : Mem} {location : U32} {size : Nat} {files : List File} (h : Image m location size files)
    (hm : ∀ x : U32, location.toNat ≤ x.toNat → x.toNat < location.toNat + size → m' x = m x) :
    Image m' location size files := by
  have hfit := h.fits
  have hhead := h.headers
  have hlt : ∀ {i f}, files[i]? = some f → i < files.length := fun hf => (List.getElem?_eq_some_iff.1 hf).1
  have hload : ∀ a : U32, location.toNat ≤ a.toNat → a.toNat + 4 ≤ location.toNat + size → load m' a = load m a :=
    fun a ha ha' => load_of_bytes (by omega) fun x hx hx' => hm x (by omega) (by omega)
  have hfields : ∀ {i f}, files[i]? = some f →
      load m' (fieldOffset (headerAt location i)) = load m (fieldOffset (headerAt location i)) ∧
        load m' (fieldLength (headerAt location i)) = load m (fieldLength (headerAt location i)) := fun {i f} hf => by
    have hi := hlt hf
    obtain ⟨-, h2, h3⟩ := @Ramdisk.toNat_fields location i (by omega)
    exact ⟨hload _ (by omega) (by omega), hload _ (by omega) (by omega)⟩
  refine ⟨hfit, hhead, ?_, fun i f hf => ?_, fun i f hf => ?_, fun i f hf => ?_, fun i f hf j hj => ?_⟩
  · rw [hload location (Nat.le_refl _) (by omega)]
    exact h.count
  · have hi := hlt hf
    obtain ⟨hname, hlen⟩ := h.name i f hf
    obtain ⟨h1, -, -⟩ := @Ramdisk.toNat_fields location i (by omega)
    exact ⟨hname.congr (by omega) fun x hx hx' => hm x (by omega) (by omega), hlen⟩
  · rw [(hfields hf).2]
    exact h.length i f hf
  · rw [(hfields hf).1]
    exact h.inside i f hf
  · obtain ⟨hin, hin'⟩ := h.inside i f hf
    rw [(hfields hf).1, ← h.content i f hf j hj]
    have hat : (location + load m (fieldOffset (headerAt location i)) + BitVec.ofNat 32 j).toNat =
        location.toNat + (load m (fieldOffset (headerAt location i))).toNat + j := by
      rw [toNat_add_ofNat] <;> rw [BitVec.toNat_add] <;> omega
    exact hm _ (by omega) (by omega)

namespace Forking

variable {k k₁ : Kernel} {dir : U32} {n top : Nat} {f b t : Seg} {tasks : TaskState} {s : Forking}

/-- **After `initialise_tasking`** nearly all of the heap is left. -/
theorem InitialiseTasking.ready (hs : InitialiseTasking k tasks s) (h : AfterBoot k k₁ dir n f b t)
    (htop : top + 512 ≤ dir.toNat) (h1 : tasks.next_pid = 1) (helem : k.heap.index.elements = kheapStart) :
    s.Ready top 0x7BFC8 ∧ Confined k s.kernel := by
  obtain ⟨hinv, -⟩ := hs.inv h htop h1
  obtain ⟨p, hstep, -⟩ := hs
  obtain ⟨hsound, -⟩ := h.task
  obtain ⟨hth, -, hts⟩ := h.rest
  have hbelow := (h.sharing.tiled.alloc_leaves hsound hstep.1).confined
  refine ⟨⟨hinv, hbelow.elements.trans helem, ?_⟩, hbelow⟩
  obtain ⟨⟨-, fuel, q, k', ha, he⟩, -⟩ := hstep
  have hroom : Roomy k 0x7CFF4 := roomy_of_hole h.inv (x := t) (by simp) hth (by rw [hts]; decide)
  have hleft := hroom.alloc h.inv hsound (by decide) (by decide) ha
  show Roomy s.spaces.heap.kernel _
  rw [he]
  exact hleft

/-- **`initialise_tasking`** takes its task from a hole. -/
theorem InitialiseTasking.backs (hs : InitialiseTasking k tasks s) (h : AfterBoot k k₁ dir n f b t) (hb : k.Backed n) :
    Backs k s.kernel n True := by
  obtain ⟨p, hstep, -⟩ := hs
  obtain ⟨hsound, -⟩ := h.task
  obtain ⟨hth, -, hts⟩ := h.rest
  have hn := h.few
  have hroom : Roomy k 0x7CFF4 := roomy_of_hole h.inv (x := t) (by simp) hth (by rw [hts]; decide)
  obtain ⟨i, hfind⟩ := hroom.found (show taskSize.toNat + 20 < 2 ^ 32 by decide) (by decide) false
  have hop : (Spaces.start k).Sound (.alloc taskSize false) := hsound
  have hback := h.sharing.backs (show (Spaces.start k).kernel.Backed n from hb) (by omega) hop hstep
  exact ⟨hback.backed, hback.kept, fun hf _ => hback.filled hf (.found hfind)⟩

/-- `fork` takes its directory and its task from holes. -/
theorem Ready.wholePages {r : Nat} (h : s.Ready top r) (hs : s.Sound .fork) (hr : 0x4044 ≤ r) : s.WholePages .fork := by
  obtain ⟨i, hfind⟩ := h.room.found (show sizeofPageDirectory.toNat + 20 < 2 ^ 32 by decide)
    (show 8196 + 0x1014 ≤ r by omega) true
  refine ⟨.found hfind, fun v hclone => ?_⟩
  have h24 : taskSize.toNat + 0x1014 = 0x102C := rfl
  obtain ⟨j, hfound⟩ := (h.cloned hs (by omega) hclone).found (show taskSize.toNat + 20 < 2 ^ 32 by decide) (by omega)
    false
  exact .found hfound

theorem InitialiseInitrd.unique {d : Ramdisk} {location : U32} {t u : System} (ht : s.InitialiseInitrd d location t)
    (hu : s.InitialiseInitrd d location u) : t = u := by
  obtain ⟨tf, td⟩ := t
  obtain ⟨uf, ud⟩ := u
  obtain ⟨k, ⟨n, hn⟩, ht⟩ := ht
  obtain ⟨k', ⟨n', hn'⟩, hu⟩ := hu
  have hrun := hn (n + n') (by omega)
  rw [hn' (n + n') (by omega), Option.some.injEq, Prod.mk.injEq] at hrun
  simp only at ht hu hrun
  rw [ht, hu, hrun.1, hrun.2]

theorem Mounts.initialiseInitrd {d r : Ramdisk} {location : U32} {size : Nat} {files : List File} {st : Storage}
    {t : Forking} (h : s.Mounts d location size files st r t) : s.InitialiseInitrd d location ⟨t, r⟩ := by
  have hl := h.mounted.loading
  have hcount : sizeofFsNode * r.nroot_nodes = nodesSize files := BitVec.eq_of_toNat_eq (by
    unfold nodesSize
    rw [BitVec.toNat_mul, hl.count, BitVec.toNat_ofNat]
    rfl)
  refine ⟨t.kernel, h.returns, ?_⟩
  show t = _
  rw [hl.rootNodes, h.mounted.dev, hl.root, hcount, ← h.live, ← h.dirs, ← h.tasks]
  rfl

/-- **The ramdisk is served** from the end of `initialise_initrd` on. -/
theorem Mounts.serving {d r : Ramdisk} {location : U32} {size : Nat} {files : List File} {st : Storage} {t : Forking}
    (h : s.Mounts d location size files st r t) (hr : t.Ready top n) :
    System.Serving s.kernel.mem st location size files top ⟨t, r⟩ := by
  refine ⟨hr.inv, hr.elements, fun b hb => ?_, ?_⟩
  · show b ∈ t.spaces.heap.live
    rw [h.live]
    exact List.mem_append_left s.spaces.heap.live hb
  · have hmem : System.ramdisk ⟨t, r⟩ = r := by
      show ({ r with mem := t.kernel.mem } : Ramdisk) = r
      rw [← h.mem]
    rw [hmem]
    exact h.mounted

end Forking

open Ramdisk in
/-- **What `kernel_main` comes to**: the ramdisk is served from the image, each page has a frame of its own, those below
`top` the frames of their numbers, and the heap is mapped and has room. -/
structure System.Up (st : Storage) (location direntry : U32) (size : Nat) (files : List File) (top : Nat) (t : System) :
    Prop where
  roots : t.disk.initrd_root = st.root ∧ t.disk.initrd_dev = st.dev ∧ t.disk.root_nodes = st.nodes
  serving : ∃ m, Image m location size files ∧ System.Serving m st location size files top t
  storage : Private st location size files.length
  entry : EntryOutside st location size files.length direntry
  backed : ∃ n, top ≤ 0x1000 * n ∧ n ≤ 3840 ∧ t.kernel.Backed n ∧ t.kernel.Filled
  ready : t.forking.Ready top 0x18000

open Ramdisk in
/-- **A call of `kmalloc` after the boot** returns a block that the caller may write to. -/
theorem System.Up.new_block {st st' : Storage} {location direntry : U32} {size top : Nat} {files : List File}
    {t : System} (h : t.Up st location direntry size files top) (len : U32) (hlow : location.toNat + size ≤ 0xC0080000)
    (hfiles : 0 < files.length) (hlen : 0 < len.toNat) (hroom : len.toNat + 0x1014 ≤ 0x18000)
    (hroots : t.disk.initrd_root = st'.root ∧ t.disk.initrd_dev = st'.dev ∧ t.disk.root_nodes = st'.nodes) :
    ∃ p f, t.forking.Kmalloc len p f ∧ p.toNat + len.toNat < 2 ^ 32 ∧
      Outside st' location size files.length p len.toNat ∧
      ∀ x : U32, p.toNat ≤ x.toNat → x.toNat < p.toNat + len.toNat → Owned st' top ⟨f, t.disk⟩ x := by
  obtain ⟨m, -, hserving⟩ := h.serving
  obtain ⟨p, f, hk, hf⟩ := h.ready.kmalloc len (by omega) hroom
  have hblock := hf.inv.block (b := (p, len)) (by rw [hk.live]; exact List.mem_cons_self ..)
  obtain ⟨hout, howned⟩ := hserving.new_block h.storage hlow hfiles hk hf.inv hlen
  obtain ⟨e₁, e₂, e₃⟩ := h.roots
  obtain ⟨e₁', e₂', e₃'⟩ := hroots
  rw [e₁] at e₁'
  rw [e₂] at e₂'
  rw [e₃] at e₃'
  refine ⟨p, f, hk, hblock.2, ⟨hout.image, e₃' ▸ hout.nodes, e₁' ▸ hout.root, e₂' ▸ hout.dev⟩, fun x hlo hhi => ?_⟩
  have hx := howned x hlo hhi
  unfold Owned at hx ⊢
  rw [← e₁', ← e₂', ← e₃']
  exact hx

open Ramdisk in
/-- **What the boot loader leaves**: the ramdisk is the only module, its image ends where the placement address begins,
the frame bitmap has its words for itself there, and the global entry of `initrd.cpp` lies below. -/
structure Loaded (k : Kernel) (mboot_ptr location initrd_end direntry : U32) (size : Nat) (files : List File) :
    Prop where
  start : AtStart k
  starts : load k.mem (load k.mem (modsAddrOf mboot_ptr)) = location
  ends : load k.mem (load k.mem (modsAddrOf mboot_ptr) + 4) = initrd_end
  length : location.toNat + size = initrd_end.toNat
  image : Image k.mem location size files
  above : 0x100000 ≤ initrd_end.toNat
  fits : BootFits initrd_end
  bitmap : BitmapAlone { k with placement_address := initrd_end }
  few : files.length ≤ 2048
  nonnull : direntry ≠ 0
  entry : direntry.toNat + 132 ≤ initrd_end.toNat
  apart : Apart location.toNat size direntry.toNat 132

open Forking Ramdisk in
/-- **`kernel_main` comes to its end**, and what it leaves. -/
theorem Loaded.up {k : Kernel} {mboot_ptr location initrd_end direntry : U32} {size : Nat} {files : List File}
    (hl : Loaded k mboot_ptr location initrd_end direntry size files) (fuel : Nat) {tasks : TaskState}
    (hpid : tasks.next_pid = 1) (d : Ramdisk) :
    (∃ t, KernelMain fuel k mboot_ptr tasks d t) ∧ ∀ t, KernelMain fuel k mboot_ptr tasks d t →
      ∃ st, t.Up st location direntry size files initrd_end.toNat := by
  obtain ⟨hs, hstart, hend, hsize, him, h1M, hfit, hbit, hfew, hnull, hentry, hapart⟩ := hl
  have hsmall := bootFits_iff.1 hfit
  have hdir := toNat_bootDirectory hfit
  have hheap : kheapStart.toNat = 0xC0000000 := rfl
  have htop : initrd_end.toNat + 512 ≤ (bootDirectory initrd_end).toNat := hbit.apart
  -- `initialise_paging`
  obtain ⟨M, hM, hbound⟩ := id hfit
  obtain ⟨k₀, k₁, n, f, b, tail, steps, -, hab, -, hrun⟩ :=
    initialisePaging_loops fuel (k := { k with placement_address := initrd_end }) ⟨hs.kheap, hs.current⟩ h1M hM hbound
  have hpaging := fun loops hl => (hrun loops hl).2
  obtain ⟨hkeep, helem⟩ := initialisePaging_keeps (k := { k with placement_address := initrd_end })
    ⟨hs.kheap, hs.current⟩ h1M hfit hpaging
  have him₀ : Image k₀.mem location size files := him.congr fun x hx hx' => hkeep x (.inl (hx'.trans_eq hsize))
  have hbacks : k₀.Backed n ∧ k₀.Filled := hab.backed (mapPages_entries ⟨hs.kheap, hs.current⟩ h1M hfit
    (show 257 ≤ steps + 257 by omega) (hrun (steps + 257) (by omega)).1)
  have hn := hab.few
  have hlow : initrd_end.toNat ≤ 0x1000 * n := by
    have hplace : k₁.placement_address.toNat = (bootDirectory initrd_end).toNat + 0x4000 + _ := hab.booting.placement
    have hended := hab.ended
    omega
  -- `initialise_tasking`, and `fork`
  have hforks : ∀ s, Forking.InitialiseTasking k₀ tasks s → s.Sound .fork ∧
      (∀ m resume, Elsewhere s.tasks.machine m → ∃ t d p id, s.Fork m resume t d p id) ∧
      ∀ u, s.Step .fork u →
        u.Ready initrd_end.toNat 0x77F84 ∧ Image u.kernel.mem location size files ∧ u.kernel.Backed n ∧
          u.kernel.Filled := fun s hinit => by
    obtain ⟨hready, hbelow⟩ := hinit.ready hab htop hpid helem
    obtain ⟨hinv, hcur, pre, x, hi, htail, hlarge⟩ := hinit.inv hab htop hpid
    obtain ⟨hsound, hreturns⟩ := hinv.fork_returns hcur hi htail hlarge
    refine ⟨hsound, hreturns, fun u hstep => ?_⟩
    have hu := hinit.backs hab hbacks.1
    have hu' := hready.inv.backs hu.backed (by omega) hsound hstep
    obtain ⟨m, resume, dir, p, id, hm, hf⟩ := hstep
    have hbelow' := hbelow.trans (hinv.fork_leaves hsound hf).1.confined
    refine ⟨hready.fork hsound hm hf (by decide), him₀.congr fun x hx hx' => hbelow'.bytes x ?_, hu'.backed,
      hu'.filled (hu.filled hbacks.2 trivial) (hready.wholePages hsound (by decide))⟩
    rw [helem]
    omega
  -- `initialise_initrd`
  have hmounts : ∀ u : Forking, u.Ready initrd_end.toNat 0x77F84 → Image u.kernel.mem location size files →
      ∃ st r t, u.Mounts d location size files st r t ∧ t.Ready initrd_end.toNat 0x18000 := fun u hu himu => by
    obtain ⟨st, r, t, hm, hr⟩ := hu.initialiseInitrd himu (by omega) (by omega) d
    exact ⟨st, r, t, hm, hr.mono (by omega)⟩
  refine ⟨?_, fun t ht => ?_⟩
  · obtain ⟨s, hinit⟩ := initialiseTasking_returns hab tasks
    obtain ⟨-, hreturns, hforked⟩ := hforks s hinit
    obtain ⟨u, dir, p, id, hf⟩ := hreturns s.tasks.machine 0 ⟨rfl, rfl, rfl⟩
    have hstep : s.Step .fork u := ⟨_, 0, dir, p, id, ⟨rfl, rfl, rfl⟩, hf⟩
    obtain ⟨hu, himu, -⟩ := hforked u hstep
    obtain ⟨st, r, t, hm, -⟩ := hmounts u hu himu
    refine ⟨⟨t, r⟩, k₀, s, u, ⟨steps, ?_⟩, hinit, hstep, ?_⟩
    · rw [hend]
      exact hpaging
    · rw [hstart]
      exact hm.initialiseInitrd
  · obtain ⟨k₀', s, u, ⟨steps', hrun'⟩, hinit, hstep, hmount⟩ := ht
    rw [hend] at hrun'
    rw [hstart] at hmount
    obtain rfl := Option.some.inj
      ((hrun' (steps + steps') (by omega)).symm.trans (hpaging (steps + steps') (by omega)))
    obtain ⟨-, -, hforked⟩ := hforks s hinit
    obtain ⟨hu, himu, hback, hfill⟩ := hforked u hstep
    obtain ⟨st, r, t', hm, hr⟩ := hmounts u hu himu
    obtain rfl := hmount.unique hm.initialiseInitrd
    have hserving := hm.serving hr
    have hl := hm.mounted.loading
    have hout := hserving.outside hapart (by omega)
    have hmounted : Backs u.kernel t'.kernel n True := .of_heap hback (by omega) hm.pages.same hm.pages.bounds
    exact ⟨st, ⟨hl.root, hm.mounted.dev, hl.rootNodes⟩, ⟨_, himu, hserving⟩, hm.storage,
      ⟨⟨hnull, by omega, hapart, hout.nodes⟩, hout.root, hout.dev⟩,
      ⟨n, hlow, hn, hmounted.backed, hmounted.filled hfill trivial⟩, hr⟩

open Ramdisk in
/-- **The kernel serves its files.**  With a ramdisk from the boot loader `kernel_main` comes to its end; and from there
on, in every run of allowed calls of the kernel and of the file system, every call of the file system ends and answers
from the files.  Heap, address spaces and ready queue stay as they are to be, and the bitmap spares the directories. -/
theorem kernel_main_serves (fuel : Nat) {k : Kernel} {mboot_ptr location initrd_end direntry : U32} {size : Nat}
    {files : List File} (hl : Loaded k mboot_ptr location initrd_end direntry size files) {tasks : TaskState}
    (hpid : tasks.next_pid = 1) (d : Ramdisk) :
    (∃ t, KernelMain fuel k mboot_ptr tasks d t) ∧ ∀ t, KernelMain fuel k mboot_ptr tasks d t → ∃ st : Storage,
      (t.disk.initrd_root = st.root ∧ t.disk.initrd_dev = st.dev ∧ t.disk.root_nodes = st.nodes) ∧
      ∀ ops u, Reaches (System.Step direntry) t ops u →
        Guarded (System.Step direntry) (System.Allowed st location size files.length initrd_end.toNat) t ops →
          (u.forking.spaces.heap.Safe ∧ u.forking.spaces.Agree ∧ u.forking.spaces.Spared initrd_end ∧
            ReadyQueue u.forking.tasks.machine u.forking.tasks.created) ∧
          ∀ call, System.Allowed st location size files.length initrd_end.toNat u (.file call) →
            ∃ a r, Ends direntry u.ramdisk call a r ∧ Answers st files u.ramdisk r call a := by
  obtain ⟨hends, hup⟩ := hl.up fuel hpid d
  have hsmall := bootFits_iff.1 hl.fits
  have hsize := hl.length
  have hentry := hl.entry
  have hheap : kheapStart.toNat = 0xC0000000 := rfl
  refine ⟨hends, fun t ht => ?_⟩
  obtain ⟨st, h⟩ := hup t ht
  obtain ⟨m, himt, hserving⟩ := h.serving
  refine ⟨st, h.roots, fun ops v hr hg => ?_⟩
  have hv := hserving.run himt h.storage h.entry (by omega) hentry (by omega) hr hg
  obtain ⟨segs, hsh⟩ := hv.inv.sharing
  obtain ⟨ring, hring⟩ := hv.inv.ring
  refine ⟨⟨hsh.tiled.safe, hsh.agree, hv.inv.spared, hring.readyQueue⟩, fun call hc => ?_⟩
  obtain ⟨a, r', hends, hans, -⟩ := hv.mounted.answers himt h.storage h.entry hc.1
  exact ⟨a, r', hends, hans⟩

/-- What the boot loader leaves: the list of modules at 0x11000, and a ramdisk of two files, a page below 2 MB. -/
def withRamdisk : Mem := fun x => if x = 0x10019 then 0x10 else if x = 0x1001A then 0x01 else
  if x = 0x11001 then 0xF0 else if x = 0x11002 then 0x1F else if x = 0x11006 then 0x20 else
    Ramdisk.twoFiles.mem (x - 0x1FE000)

theorem withRamdisk_image : Image withRamdisk 0x1FF000 0x1000 Ramdisk.abFiles :=
  ⟨by decide, by decide, by decide,
    Ramdisk.abFiles_cases ⟨stringAt_cons.2 ⟨by decide, by decide, stringAt_nil.2 (by decide)⟩, by decide⟩
      ⟨stringAt_cons.2 ⟨by decide, by decide, stringAt_nil.2 (by decide)⟩, by decide⟩,
    Ramdisk.abFiles_cases (by decide) (by decide), Ramdisk.abFiles_cases (by decide) (by decide),
    Ramdisk.abFiles_cases (by decide) (by decide)⟩

theorem withRamdisk_above {x : U32} (hlo : 0x200000 ≤ x.toNat) (hhi : x.toNat < 0x400000) : withRamdisk x = 0 := by
  have hne : ∀ a : U32, a.toNat < 0x200000 → x ≠ a := fun a ha he => by
    rw [he] at hlo
    omega
  have hfar : (x - 0x1FE000).toNat = x.toNat - 0x1FE000 := by
    rw [BitVec.toNat_sub, show (0x1FE000 : U32).toNat = 0x1FE000 from rfl]
    omega
  unfold withRamdisk
  rw [if_neg (hne _ (by decide)), if_neg (hne _ (by decide)), if_neg (hne _ (by decide)), if_neg (hne _ (by decide)),
    if_neg (hne _ (by decide))]
  exact Ramdisk.twoFiles_above (by omega)

theorem withRamdisk_loaded : Loaded { imageAt1M with mem := withRamdisk } 0x10000 0x1FF000 0x200000 0x12000 0x1000
    Ramdisk.abFiles := by
  have hfits : BootFits 0x200000 := bootFits_iff.2 (by decide)
  have hplace : (0x200000 : U32).toNat + 128 = 0x200080 ∧ bitmapEnd 0x200000 = 0x200200 := ⟨rfl, rfl⟩
  exact ⟨⟨rfl, rfl⟩, by decide, by decide, by decide, withRamdisk_image, by decide, hfits,
    ⟨(apart_iff hfits).2 (by decide), fun x hlo hhi => withRamdisk_above
      (hlo.trans' (by rw [hplace.1]; decide)) (hhi.trans (by rw [show bitmapEnd _ = _ from hplace.2]; decide))⟩,
    by decide, by decide, by decide, .inr (by decide)⟩

open Ramdisk in
/-- After the boot a block is taken, the second file's entry read, and the first file into the block, from its second
byte on. -/
theorem kernel_main_serves_twoFiles : ∃ t st p u v n r,
    KernelMain 0 { imageAt1M with mem := withRamdisk } 0x10000 ⟨twoTasks.machine, 1⟩ twoFiles t ∧
      t.Step 0x12000 (.kernel (.call (.alloc 16 false))) u ∧ u.Step 0x12000 (.file (.readdir st.root 2)) v ∧
      Ends 0x12000 v.ramdisk (.read (nodeAt st 0) 1 16 p) (.count n) r ∧
      (List.range n.toNat).map (bytesFrom r.mem p) = [2, 3, 4, 5] := by
  have hpid : (⟨twoTasks.machine, 1⟩ : TaskState).next_pid = 1 := rfl
  obtain ⟨⟨t, ht⟩, h⟩ := kernel_main_serves 0 withRamdisk_loaded hpid twoFiles
  obtain ⟨st, hroots, hruns⟩ := h t ht
  obtain ⟨_, hup⟩ := (withRamdisk_loaded.up 0 hpid twoFiles).2 t ht
  -- the block
  obtain ⟨p, f, hk, hroom, ⟨himage, hnodes, hroot, hdev⟩, howned⟩ :=
    hup.new_block 16 (by decide) (by decide) (by decide) (by decide) hroots
  have halloc : t.Step 0x12000 (.kernel (.call (.alloc 16 false))) ⟨f, t.disk⟩ := ⟨(hk.step f).2 rfl, rfl⟩
  have hallowed : System.Allowed st 0x1FF000 0x1000 abFiles.length (0x200000 : U32).toNat t
      (.kernel (.call (.alloc 16 false))) := ⟨hk.sound, nofun⟩
  -- the entry
  have hentry : ∀ s : System, System.Allowed st 0x1FF000 0x1000 abFiles.length (0x200000 : U32).toNat s
      (.file (.readdir st.root 2)) := fun s => ⟨.inl (.inl rfl), fun _ hx => hx.elim⟩
  obtain ⟨-, hanswered⟩ := hruns _ _ (reaches_one halloc) ⟨hallowed, fun _ _ => trivial⟩
  obtain ⟨a, q, hends, -⟩ := hanswered _ (hentry _)
  have hreaddir : System.Step 0x12000 ⟨f, t.disk⟩ (.file (.readdir st.root 2)) ⟨f.withMem q.mem, q⟩ := ⟨⟨a, hends⟩, rfl⟩
  -- the bytes
  have hread : System.Allowed st 0x1FF000 0x1000 abFiles.length (0x200000 : U32).toNat ⟨f.withMem q.mem, q⟩
      (.file (.read (nodeAt st 0) 1 16 p)) :=
    ⟨⟨.inr ⟨0, by decide, rfl⟩, by decide, hroom.le, himage, hnodes, hroot, hdev⟩, fun x hx => howned x hx.1 hx.2⟩
  obtain ⟨-, hanswered⟩ := hruns _ _ (.cons halloc (reaches_one hreaddir))
    ⟨hallowed, fun _ _ => ⟨hentry _, fun _ _ => trivial⟩⟩
  obtain ⟨b, r, hends, hans⟩ := hanswered _ hread
  obtain ⟨n, rfl⟩ : ∃ n, b = .count n := by
    cases b with
    | count n => exact ⟨n, rfl⟩
    | _ => exact hans.elim
  exact ⟨t, st, p, _, _, n, r, ht, halloc, hreaddir, hends, hans.1 ⟨[0x61], [1, 2, 3, 4, 5]⟩ ⟨0, rfl, rfl⟩⟩

end Loris
