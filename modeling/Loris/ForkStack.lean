import Loris.AddressSpaces
import Loris.ForkQueue
/-!
# ForkStack — the stack that `fork` leaves to the child

The boot stack lies in the image, in the pages that are mapped to themselves; `move_stack` is not called.
`clone_directory` shares their tables with the child, so that parent and child run on one stack, and the child finds the
frame of `fork` exactly when the parent leaves it as it was (`fork_stack`).

`ram` is the physical memory from `read_eip` on.  A task sees it through the tables of its directory.
-/
namespace Loris

open ByteMem Runs Kernel

namespace Kernel

/-- The memory that the tables of `dir` show. -/
def view (k : Kernel) (dir : U32) (ram : Mem) : Mem := fun x => ((translate k dir x).map ram).getD 0

/-- A byte is stored through the tables of `dir`. -/
def storeThrough (k : Kernel) (dir : U32) (ram : Mem) (w : U32 × Byte) : Mem :=
  match translate k dir w.1 with
  | some a => storeByte ram a w.2
  | none => ram

def storesThrough (k : Kernel) (dir : U32) (ram : Mem) (l : List (U32 × Byte)) : Mem := l.foldl (k.storeThrough dir) ram

end Kernel

/-- `n` bytes of the boot stack: it lies in the image, which ends below the placement address `top`. -/
def OnStack (top : Nat) (a : U32) (n : Nat) : Prop := 0x100000 ≤ a.toNat ∧ a.toNat + n ≤ top

/-- The words of the frame of `fork`: its local `parent_task`, the saved EBP and the return address. -/
def frameWords (parent_task ebp : U32) : List U32 := [parent_task, ebp, ebp + 4]

/-- `c` is where `switch_task` first jumps to the task `p`, its record as it is in `m`. -/
def FirstRuns (m : Machine) (p : U32) (c : Machine) : Prop :=
  ∃ m' : Machine, m'.tasks p = m.tasks p ∧ m'.current_task ≠ p ∧ m'.successor m'.current_task = p ∧ c = m'.switched

/-- **The child, at `c`, finds the frame of `fork`** that the parent had at `m`, and `fork` returns 0. -/
structure FindsFrame (k : Kernel) (dir : U32) (ram ram' : Mem) (m : Machine) (resume parent_task : U32) (c : Machine) :
    Prop where
  eip : c.eip = resume
  esp : c.esp = m.esp
  ebp : c.ebp = m.ebp
  frame : ∀ a ∈ frameWords parent_task c.ebp, load (k.view c.current_directory ram') a = load (k.view dir ram) a
  returns : ∀ pid new_task eip, (TaskState.forkReturn ⟨c, pid⟩ (load (k.view c.current_directory ram') parent_task)
    new_task eip).1 = 0

/-- The last store to each byte of the frame puts back what is there. -/
def LeavesFrame (old : Mem) (parent_task ebp : U32) (l : List (U32 × Byte)) : Prop :=
  ∀ a ∈ frameWords parent_task ebp, ∀ i, i < 4 → ∀ v, lastStore (a + BitVec.ofNat 32 i) l = some v →
    v = old (a + BitVec.ofNat 32 i)

/-- The address spaces, and the tasks. -/
structure Forking where
  spaces : Spaces
  tasks : TaskRun

inductive ForkingOp where
  | call (op : SpaceOp)
  | fork
  | switch_task

namespace Forking

def kernel (s : Forking) : Kernel := s.spaces.kernel

/-- The size that `fork` asks `kmalloc` for. -/
def taskSize : U32 := BitVec.ofNat 32 sizeofTask

/-- A call of `fork` with the machine at `m`: `clone_directory` returns `directory`, `kmalloc` returns `new_task`, and
`fork` returns `id` to the parent. -/
structure Fork (s : Forking) (m : Machine) (resume : U32) (t : Forking) (directory new_task id : U32) : Prop where
  spaces : ∃ v, s.spaces.Step (.clone s.kernel.current_directory) v ∧ v.dirs = directory :: s.spaces.dirs ∧
    v.Step (.alloc taskSize false) t.spaces ∧ t.spaces.heap.live = (new_task, taskSize) :: v.heap.live
  tasks : ∃ fuel u, TaskState.fork resume fuel ⟨m, s.tasks.state.next_pid⟩ directory new_task = some (id, u) ∧
    t.tasks = ⟨u, s.tasks.created ++ [new_task], s.tasks.selected⟩

/-- One call that returns; `switch_task` returns to the task selected. -/
def Step (s : Forking) : ForkingOp → Forking → Prop
  | .call op, t => s.spaces.Step op t.spaces ∧ t.tasks = s.tasks
  | .fork, t => ∃ m resume directory new_task id, Elsewhere s.tasks.machine m ∧ s.Fork m resume t directory new_task id
  | .switch_task, t => s.tasks.Step .switch t.tasks ∧
      s.spaces.Step (.switch t.tasks.machine.current_directory) t.spaces

theorem step_alloc {s t : Forking} {size : U32} {al : Bool} {i : Nat} (hsize : size.toNat + 20 < 2 ^ 32)
    (hf : s.kernel.heap.findSmallestHole s.kernel.mem (size + sizeofHeader + sizeofFooter) al = some i) :
    s.Step (.call (.alloc size al)) t ↔ t = ⟨⟨s.spaces.heap.allocated i size al, s.spaces.dirs⟩, s.tasks⟩ := by
  obtain ⟨u, r⟩ := t
  show s.spaces.Step (.alloc size al) u ∧ r = s.tasks ↔ _
  rw [Spaces.step_alloc hsize hf, Forking.mk.injEq]

/-- **The call is sound in the state it is made in**; no task is freed. -/
def Sound (s : Forking) : ForkingOp → Prop
  | .call (.free p) => s.spaces.Sound (.free p) ∧ p ∉ s.tasks.created
  | .call op => s.spaces.Sound op
  | .fork => s.kernel.AllocSound sizeofPageDirectory true ∧
      ∀ v, s.spaces.Step (.clone s.kernel.current_directory) v → v.kernel.AllocSound taskSize false
  | .switch_task => True

/-- `initialise_tasking` from the state `k` that `initialise_paging` leaves. -/
def InitialiseTasking (k : Kernel) (tasks : TaskState) (s : Forking) : Prop :=
  ∃ p, (Spaces.start k).Step (.alloc taskSize false) s.spaces ∧
    s.spaces.heap.live = (p, taskSize) :: (Spaces.start k).heap.live ∧ s.tasks = TaskRun.start tasks p

end Forking

/-! ## One stack for both -/

section Stack

variable {k : Kernel} {dir x : U32} {top : Nat} {m : Machine} {p : U32}

theorem view_identity (ram : Mem) (h : translate k dir x = some x) : k.view dir ram x = ram x := by
  unfold view
  rw [h]
  rfl

theorem storesThrough_identity : ∀ {l : List (U32 × Byte)} (ram : Mem),
    (∀ w ∈ l, translate k dir w.1 = some w.1) → k.storesThrough dir ram l = stores ram l
  | [], _, _ => rfl
  | w :: l, ram, h => by
    show k.storesThrough dir (k.storeThrough dir ram w) l = stores (storeByte ram w.1 w.2) l
    have hw : k.storeThrough dir ram w = storeByte ram w.1 w.2 := by
      unfold storeThrough
      rw [h w (List.mem_cons_self ..)]
    rw [hw]
    exact storesThrough_identity _ fun w' hw' => h w' (List.mem_cons_of_mem _ hw')

theorem OnStack.byte {a : U32} {i : Nat} (h : OnStack top a 4) (htop : top ≤ 2 ^ 32) (hi : i < 4) :
    OnStack top (a + BitVec.ofNat 32 i) 1 := by
  obtain ⟨h1, h2⟩ := h
  have ha : (a + BitVec.ofNat 32 i).toNat = a.toNat + i := by
    rw [BitVec.toNat_add, BitVec.toNat_ofNat]
    omega
  exact ⟨by omega, by omega⟩

theorem switched_current_directory (m : Machine) :
    m.switched.current_directory = (m.switched.tasks m.switched.current_task).page_directory := rfl

theorem FirstRuns.context {c : Machine} (h : FirstRuns m p c) : c.current_task = p ∧ c.eip = (m.tasks p).eip ∧
    c.esp = (m.tasks p).esp ∧ c.ebp = (m.tasks p).ebp ∧ c.current_directory = (m.tasks p).page_directory := by
  obtain ⟨m', htask, hne, hsucc, hc⟩ := h
  subst hc
  have hcur : m'.switched.current_task = p := by rw [Machine.switched_current_task, hsucc]
  have hp : m'.switched.tasks p = m.tasks p := by rw [Machine.switched_tasks, if_neg hne.symm, htask]
  obtain ⟨heip, hesp, hebp, -⟩ := m'.switched_context
  rw [hcur, hp] at heip hesp hebp
  exact ⟨hcur, heip, hesp, hebp, by rw [switched_current_directory, hcur, hp]⟩

theorem firstRuns_exists (m : Machine) (hp : p ≠ 0) : ∃ c, FirstRuns m p c := by
  have hne : p + 1 ≠ p := by bv_omega
  let m' := { m with
    current_task := p + 1
    tasks := fun q => if q = p + 1 then { m.tasks q with next := p } else m.tasks q }
  refine ⟨m'.switched, m', if_neg hne.symm, hne, ?_, rfl⟩
  simp only [Machine.successor, m', if_true, if_neg hp]

/-- **Parent and child on one stack**: the child finds the frame exactly when the parent leaves it as it was. -/
theorem findsFrame_iff {d resume parent_task : U32} {u : Machine} {ram : Mem} {l : List (U32 × Byte)}
    (htop : top ≤ 2 ^ 32)
    (hid : ∀ x, OnStack top x 1 → translate k dir x = some x ∧ translate k d x = some x)
    (htask : u.tasks p = ⟨(u.tasks p).id, m.esp, m.ebp, resume, d, 0⟩) (hp : p ≠ 0) (hne : m.current_task ≠ p)
    (hframe : ∀ a ∈ frameWords parent_task m.ebp, OnStack top a 4) (hl : ∀ w ∈ l, OnStack top w.1 1)
    (hlocal : load (k.view dir ram) parent_task = m.current_task) :
    (∀ c, FirstRuns u p c → FindsFrame k dir ram (k.storesThrough dir ram l) m resume parent_task c) ↔
      LeavesFrame (k.view dir ram) parent_task m.ebp l := by
  have hstores := @storesThrough_identity _ dir _ ram fun w hw => (hid w.1 (hl w hw)).1
  have hctx : ∀ {c}, FirstRuns u p c → c.current_task = p ∧ c.eip = resume ∧ c.esp = m.esp ∧ c.ebp = m.ebp ∧
      c.current_directory = d := fun hc => by
    have := hc.context
    rw [htask] at this
    exact this
  -- what the child reads of the frame
  have hread : ∀ a ∈ frameWords parent_task m.ebp, ∀ i, i < 4 →
    k.view d (k.storesThrough dir ram l) (a + BitVec.ofNat 32 i) =
      (lastStore (a + BitVec.ofNat 32 i) l).getD (k.view dir ram (a + BitVec.ofNat 32 i)) := fun a ha i hi => by
    obtain ⟨h1, h2⟩ := hid _ ((hframe a ha).byte htop hi)
    rw [view_identity _ h2, view_identity _ h1, hstores, stores_apply]
  constructor
  · intro h a ha i hi v hv
    obtain ⟨c, hc⟩ := firstRuns_exists u hp
    obtain ⟨-, -, -, hebp, hd⟩ := hctx hc
    have hw := (h c hc).frame a (by rw [hebp]; exact ha)
    rw [hd] at hw
    have hb := load_eq_iff.1 hw i hi
    rw [hread a ha i hi, hv] at hb
    exact hb
  · intro h c hc
    obtain ⟨hcur, heip, hesp, hebp, hd⟩ := hctx hc
    have hw : ∀ a ∈ frameWords parent_task m.ebp,
      load (k.view d (k.storesThrough dir ram l)) a = load (k.view dir ram) a :=
      fun a ha => load_eq_iff.2 fun i hi => by
        rw [hread a ha i hi]
        cases hv : lastStore (a + BitVec.ofNat 32 i) l with
        | none => rfl
        | some v => exact h a ha i hi v hv
    refine ⟨heip, hesp, hebp, fun a ha => ?_, fun pid q e => ?_⟩
    · rw [hd]
      rw [hebp] at ha
      exact hw a ha
    · rw [hd, hw _ (List.mem_cons_self ..), hlocal]
      unfold TaskState.forkReturn
      rw [if_neg fun he => hne (by rw [← hcur, he])]

end Stack

/-! ## Runs -/

/-- **The stack is mapped to itself**, by tables below the heap; they and the kernel's directory are behind the bitmap,
which starts at the top of the stack. -/
structure StackMapped (k : Kernel) (top : Nat) : Prop where
  behind : k.TablesBehind (top + 512) k.kernel_directory
  tables : ∀ j, j < 1024 → (k.directories k.kernel_directory).tables j ≠ 0 →
    ((k.directories k.kernel_directory).tables j).toNat + 0x1000 ≤ 0xC0080000
  stack : ∀ x, OnStack top x 1 → translate k k.kernel_directory x = some x

theorem OnStack.past_first {top n : Nat} {x : U32} (h : OnStack top x n) : 0x1000 ≤ x.toNat := by
  have := h.1
  omega

theorem StackMapped.of_pages {k k' : Kernel} {top : Nat} (h : StackMapped k top) (hd : k'.directories = k.directories)
    (hk : k'.kernel_directory = k.kernel_directory) (hp : KeepsPages k k') : StackMapped k' top := by
  refine ⟨?_, ?_, fun x hx => ?_⟩
  · rw [hk]
    exact h.behind.congr h.behind.self fun i _ => by rw [hd]
  · rw [hd, hk]
    exact h.tables
  · rw [hk]
    exact identity_kept (fun j _ _ => by rw [hd]) (fun j i _ _ hf => hp _ hf) hx.past_first (h.stack x hx)

theorem Kernel.FreeSound.same {k k' : Kernel} {base : Nat} {segs : List Seg} {b : Seg}
    (hs : FreeSound k (b.addr + sizeofHeader)) (hi : Inv k.heap k.mem base segs) (hb : b ∈ segs) (hl : b.hole = false)
    (hk : k.free (b.addr + sizeofHeader) = some k') : k' = { k with
      heap := k'.heap
      mem := k'.mem } := by
  obtain ⟨segs₁, pre, left, right, post, hi₁, -, ha, hpost, hroom⟩ := hs.around hi hb
  obtain ⟨k'', M, hk'', hr⟩ := free_inside hi₁ ha hl hpost hroom
  rw [hk] at hk''
  obtain rfl := Option.some.inj hk''
  exact hr.same

section Spaces

variable {s t : Spaces} {segs : List Seg} {top : Nat}

theorem StackMapped.clone (h : StackMapped s.kernel top) (hsh : s.Sharing segs) {src dir : U32} {k₁ : Kernel}
    {segs' : List Seg} (hc : Spaces.Cloned s src dir k₁ segs' t) : StackMapped t.kernel top := by
  have hker := hc.directory hsh (d := s.kernel.kernel_directory) (.inl rfl)
  refine ⟨?_, ?_, fun x hx => ?_⟩
  · rw [hc.kernelDir]
    exact h.behind.congr h.behind.self fun i _ => by rw [hker]
  · rw [hc.kernelDir, hker]
    exact h.tables
  · rw [hc.kernelDir]
    refine identity_kept (fun j _ _ => by rw [hker]) (fun j i hj h0 hf => ?_) hx.past_first (h.stack x hx)
    have hlow := hc.low
    have hhigh := hc.high
    have htab := h.tables j hj h0
    rw [← hc.pages _ hf, hc.kernel]
    exact clear_page (k := k₁) hhigh (by simp only; omega) (.inl (by simp only; omega))

/-- **A sound step leaves the stack where it is.** -/
theorem StackMapped.step (h : StackMapped s.kernel top) (hsh : s.Sharing segs) {op : SpaceOp} (hs : s.Sound op)
    (hstep : s.Step op t) : StackMapped t.kernel top := by
  cases op with
  | clone src =>
    obtain ⟨dir, k₁, segs', hc⟩ := hsh.clone_shared hs hstep
    exact h.clone hsh hc
  | alloc size al =>
    obtain ⟨th, td⟩ := t
    obtain ⟨⟨-, fuel, p, k', ha, rfl⟩, -⟩ := hstep
    obtain ⟨hsame, hp⟩ := (AllocSound.makesNoTable hs).spaces ha
    exact @StackMapped.of_pages _ k' _ h (by rw [hsame]) (by rw [hsame]) hp
  | free p =>
    obtain ⟨th, td⟩ := t
    obtain ⟨⟨⟨n, hn⟩, k', hk, rfl⟩, -⟩ := hstep
    obtain ⟨g, hg, hgl, hgp, -⟩ := hsh.tiled.live _ hn
    simp only at hgp
    subst hgp
    have hsame := FreeSound.same hs hsh.tiled.inv hg hgl hk
    exact @StackMapped.of_pages _ k' _ h (by rw [hsame]) (by rw [hsame]) fun q _ => by rw [hsame]; rfl
  | switch dir =>
    obtain ⟨-, rfl⟩ := hstep
    exact ⟨h.behind.congr h.behind.self fun _ _ => rfl, h.tables, h.stack⟩

theorem Spaces.Sharing.fresh (h : t.Sharing segs) {p : U32} {live : List (U32 × U32)} {tasks : List U32}
    (hlive : t.heap.live = (p, Forking.taskSize) :: live) (htasks : ∀ q ∈ tasks, (q, Forking.taskSize) ∈ live) :
    Fresh tasks p := by
  have hmem : (p, Forking.taskSize) ∈ t.heap.live := by
    rw [hlive]
    exact List.mem_cons_self ..
  have h24 : Forking.taskSize.toNat = sizeofTask := rfl
  have hsize : sizeofTask = 24 := rfl
  obtain ⟨g, hg, hb⟩ := h.tiled.live _ hmem
  have hw := h.tiled.inv.within g hg
  have hp := hb.ptr hw.2
  have hroom := hb.2.2
  simp only [h24] at hp hroom
  refine ⟨fun h0 => ?_, by omega, fun q hq => ?_⟩
  · have hz : (0 : U32).toNat = 0 := rfl
    rw [h0, hz] at hp
    omega
  · have hdis := h.tiled.safe.disjoint
    rw [hlive] at hdis
    have := (List.pairwise_cons.1 hdis).1 _ (htasks q hq)
    simp only [h24] at this
    exact Or.symm this

end Spaces

namespace Forking

variable {s t : Forking} {top : Nat}

/-- **The tables are shared, the stack is mapped to itself, and the tasks are a ring of live blocks.** -/
structure Inv (s : Forking) (top : Nat) : Prop where
  sharing : ∃ segs, s.spaces.Sharing segs
  mapped : StackMapped s.kernel top
  ring : ∃ r, IsRing s.tasks r
  live : ∀ q ∈ s.tasks.created, (q, taskSize) ∈ s.spaces.heap.live

theorem Sound.spaces {op : SpaceOp} (hs : s.Sound (.call op)) : s.spaces.Sound op := by
  cases op with
  | free p => exact hs.1
  | clone src => exact hs
  | alloc size al => exact hs
  | switch dir => exact hs

/-- **The bitmap spares every directory.** -/
theorem Inv.spared {frames : U32} (h : s.Inv frames.toNat) : s.spaces.Spared frames := by
  obtain ⟨segs, hsh⟩ := h.sharing
  exact hsh.spared h.mapped.behind

/-- A call that is not about tasks. -/
theorem Inv.call (h : s.Inv top) {op : SpaceOp} (hs : s.Sound (.call op)) (hstep : s.Step (.call op) t) :
    t.Inv top := by
  obtain ⟨hstep, htasks⟩ := hstep
  obtain ⟨segs, hsh⟩ := h.sharing
  have hop := hs.spaces
  refine ⟨hsh.step hop hstep, h.mapped.step hsh hop hstep, by rw [htasks]; exact h.ring, fun q hq => ?_⟩
  rw [htasks] at hq
  have hq' := h.live q hq
  cases op with
  | clone src =>
    obtain ⟨dir, k₁, segs', hc⟩ := hsh.clone_shared hop hstep
    rw [hc.live]
    exact List.mem_cons_of_mem _ hq'
  | alloc size al =>
    obtain ⟨⟨-, fuel, p, k', -, he⟩, -⟩ := hstep
    rw [he]
    exact List.mem_cons_of_mem _ hq'
  | free p =>
    obtain ⟨⟨-, k', -, he⟩, -⟩ := hstep
    rw [he]
    refine List.mem_filter.2 ⟨hq', ?_⟩
    simp only [bne_iff_ne, ne_eq]
    exact fun he => hs.2 (he ▸ hq)
  | switch dir =>
    obtain ⟨-, he⟩ := hstep
    rw [he]
    exact hq'

/-- **A sound call of `fork`**: the record of the child has the context of the parent, and both directories map the
stack to itself. -/
theorem Inv.forked (h : s.Inv top) (hs : s.Sound .fork) {m : Machine} {resume d p id : U32}
    (hm : Elsewhere s.tasks.machine m) (hf : s.Fork m resume t d p id) :
    t.Inv top ∧ p ≠ 0 ∧ m.current_task ≠ p ∧ t.tasks.machine.tasks p = ⟨id, m.esp, m.ebp, resume, d, 0⟩ ∧
      ∀ x, OnStack top x 1 →
        translate t.kernel s.kernel.current_directory x = some x ∧ translate t.kernel d x = some x := by
  obtain ⟨⟨v, hclone, hdirs, halloc, hlive⟩, fuel, u, hfork, htasks⟩ := hf
  obtain ⟨segs, hsh⟩ := h.sharing
  obtain ⟨r, hr⟩ := h.ring
  have hcur : s.spaces.IsDir s.kernel.current_directory := hclone.1
  obtain ⟨dir, k₁, segs₁, hc⟩ := hsh.clone_shared hs.1 hclone
  obtain rfl : dir = d := (List.cons.inj (hc.dirs.symm.trans hdirs)).1
  have hshv := hc.sharing hsh hcur
  have hsound : v.Sound (.alloc taskSize false) := hs.2 v hclone
  have hmap := (h.mapped.clone hsh hc).step hshv hsound halloc
  obtain ⟨segs₂, hsht⟩ := hshv.step hsound halloc
  have hlivev : ∀ q ∈ s.tasks.created, (q, taskSize) ∈ v.heap.live := fun q hq => by
    rw [hc.live]
    exact List.mem_cons_of_mem _ (h.live q hq)
  have hfresh := hsht.fresh hlive hlivev
  -- the ready queue
  have hring := (hr.fork (d := dir) (p := p) (t := t.tasks) ⟨m, resume, fuel, id, u, hm, hfresh, hfork, htasks⟩).1
  obtain ⟨hmt, hmc, hmr⟩ := hm
  have hnot := hr.notMem hfresh
  have hin := r.inside
  have hlast := List.getElem?_eq_getElem (l := r.queue) (i := r.queue.length - 1) (by omega)
  obtain ⟨-, -, -, htask, hid⟩ := fork_spec (q := r.queue) (fun i a ha => by rw [hmt]; exact hr.next i a ha)
    hr.nonnull (by rw [hmr]; exact hr.head) hlast hnot hfork
  have hrec := htask p
  rw [if_pos rfl, ← hid] at hrec
  -- the directories
  have hker : t.kernel.kernel_directory = v.kernel.kernel_directory := by
    obtain ⟨⟨-, f, q, k', ha, he⟩, -⟩ := halloc
    have hsame := ((hs.2 v hclone).makesNoTable.spaces ha).1
    show t.spaces.heap.kernel.kernel_directory = _
    rw [he, hsame]
  have hdirt : t.spaces.dirs = dir :: s.spaces.dirs := halloc.2.trans hc.dirs
  have htr : ∀ {e : U32}, t.spaces.IsDir e → ∀ x, OnStack top x 1 → translate t.kernel e x = some x := fun he x hx =>
    (Spaces.translate_congr (hsht.same he (tableIndex_lt x))).trans (hmap.stack x hx)
  have hcurt : t.spaces.IsDir s.kernel.current_directory := by
    rcases hcur with hcur | hcur
    · exact .inl (hcur.trans (hc.kernelDir.symm.trans hker.symm))
    · exact .inr (by rw [hdirt]; exact List.mem_cons_of_mem _ hcur)
  refine ⟨⟨⟨segs₂, hsht⟩, hmap, ⟨_, hring⟩, fun q hq => ?_⟩, hfresh.1, fun he => ?_, ?_, fun x hx =>
    ⟨htr hcurt x hx, htr (.inr (by rw [hdirt]; exact List.mem_cons_self ..)) x hx⟩⟩
  · rw [htasks] at hq
    rw [hlive]
    rcases List.mem_append.1 hq with hq | hq
    · exact List.mem_cons_of_mem _ (hlivev q hq)
    · rw [List.mem_singleton.1 hq]
      exact List.mem_cons_self ..
  · refine hnot ?_
    rw [← he, hmc, hr.current]
    exact List.getElem_mem hin
  · rw [htasks]
    exact hrec

/-- **A sound step keeps the invariant.** -/
theorem Inv.step (h : s.Inv top) {op : ForkingOp} (hs : s.Sound op) (hstep : s.Step op t) : t.Inv top := by
  cases op with
  | call op => exact h.call hs hstep
  | fork =>
    obtain ⟨m, resume, d, p, id, hm, hf⟩ := hstep
    exact (h.forked hs hm hf).1
  | switch_task =>
    obtain ⟨htasks, hspaces⟩ := hstep
    obtain ⟨segs, hsh⟩ := h.sharing
    obtain ⟨r, hr⟩ := h.ring
    have hring := (hr.switch htasks).1
    have hsound : s.spaces.Sound (.switch t.tasks.machine.current_directory) := trivial
    refine ⟨hsh.step hsound hspaces, h.mapped.step hsh hsound hspaces, ⟨_, hring⟩, fun q hq => ?_⟩
    obtain ⟨m, -, -, he⟩ := htasks
    obtain ⟨-, he'⟩ := hspaces
    rw [he] at hq
    rw [he']
    exact h.live q hq

end Forking

/-! ## The state that `kernel_main` sets up -/

namespace Kernel

variable {k k₁ : Kernel} {dir : U32} {n : Nat} {f b t : Seg}

/-- **The record of the first task**, from one of the two holes: what is left has a last hole that takes a directory. -/
theorem AfterBoot.task (h : AfterBoot k k₁ dir n f b t) : k.AllocSound Forking.taskSize false ∧ ∃ p k',
    (∀ fuel, alloc (fuel + 1) k Forking.taskSize false = some (p, k')) ∧
      ∃ pre x, Inv k'.heap k'.mem 0xC0080000 (pre ++ [x]) ∧ TailFits k' pre x sizeofPageDirectory ∧
        (frontGap x.addr).toNat + 0x3000 ≤ x.size.toNat := by
  obtain ⟨hfh, hfa, hfs⟩ := h.front
  obtain ⟨hbh, hba, hbs⟩ := h.block
  obtain ⟨hth, hta, hts⟩ := h.rest
  have hfa' : f.addr.toNat = 0xC0080000 := by rw [hfa]; rfl
  have hfs' : f.size.toNat = 0xFF4 := by rw [hfs]; rfl
  have hta' : t.addr.toNat = 0xC008300C := by rw [hta]; rfl
  have hts' : t.size.toNat = 0x7CFF4 := by rw [hts]; rfl
  have h24 : Forking.taskSize.toNat = 24 := rfl
  have hdir : sizeofPageDirectory.toNat = 8196 := rfl
  have hcount : ∀ {h : Heap} {m : Mem} {segs : List Seg}, Inv h m 0xC0080000 segs → segs.length ≤ 4 →
      h.index.size.toNat < heapIndexSize.toNat := fun {h m segs} hi hl =>
    Nat.lt_of_le_of_lt (hi.toMarks.size_le.trans hl) (by decide)
  obtain ⟨i, hfind⟩ := Heap.findSmallestHole_exists h.inv.toMarks (x := t) (by simp) hth
    (show (Forking.taskSize + sizeofHeader + sizeofFooter).toNat ≤ t.size.toNat by rw [hts]; decide)
  refine ⟨.plain hfind, ?_⟩
  obtain ⟨hlt, -, -⟩ := Heap.findSmallestHole_some hfind
  obtain ⟨y, hy, hyh, hya⟩ := h.inv.toMarks.hole_at hlt
  have hcase : y = f ∨ y = t := by
    simp only [List.mem_cons, List.not_mem_nil, or_false] at hy
    rcases hy with rfl | rfl | rfl
    · exact .inl rfl
    · rw [hbh] at hyh
      cases hyh
    · exact .inr rfl
  rcases hcase with rfl | rfl
  · -- the gap in front of the clone
    obtain ⟨k', b', r, ha, hinv, hbh', -, -, hrh, hra, hre⟩ := @alloc_split _ _ [] _ _ [b, t] _ h.inv hyh hfind
      hya.symm (by omega)
    have hgap : (frontGap t.addr).toNat = 0xFE8 := by rw [hta]; decide
    refine ⟨_, k', ha, [b', r, b], t, hinv,
      ⟨hth, by omega, fun z hz hzh => ?_, by omega, by omega, hcount hinv (by simp)⟩,
      by omega⟩
    simp only [List.mem_cons, List.not_mem_nil, or_false] at hz
    rcases hz with rfl | rfl | rfl
    · rw [hbh'] at hzh
      cases hzh
    · exact ⟨by omega, by omega⟩
    · rw [hbh] at hzh
      cases hzh
  · -- the rest behind it
    obtain ⟨k', b', r, ha, hinv, hbh', -, -, hrh, hra, hre⟩ := @alloc_split _ _ [f, b] _ _ [] _ h.inv hyh hfind
      hya.symm (by omega)
    have hrv : r.addr = 0xC0083038 := BitVec.eq_of_toNat_eq (by
      show _ = 0xC0083038
      omega)
    have hgap : (frontGap r.addr).toNat = 0xFBC := by rw [hrv]; decide
    refine ⟨_, k', ha, [f, b, b'], r, hinv,
      ⟨hrh, by omega, fun z hz hzh => ?_, by omega, by omega, hcount hinv (by simp)⟩,
      by omega⟩
    simp only [List.mem_cons, List.not_mem_nil, or_false] at hz
    rcases hz with rfl | rfl | rfl
    · exact ⟨by omega, by omega⟩
    · rw [hbh] at hzh
      cases hzh
    · rw [hbh'] at hzh
      cases hzh

/-- **The stack after `initialise_paging`.** -/
theorem AfterBoot.stackMapped (h : AfterBoot k k₁ dir n f b t) {top : Nat}
    (htop : top + 512 ≤ dir.toNat) : StackMapped k top := by
  have hhigh := h.fits.high
  have hpl := h.booting.placement
  have hend := h.ended
  have hfew := h.few
  have htab : ∀ j, j < 1024 → (k.directories k.kernel_directory).tables j ≠ 0 →
      ((k.directories k.kernel_directory).tables j).toNat + 0x1000 ≤ 0xC0080000 := fun j hj h0 => by
    rw [h.kernelDir, h.directory] at h0 ⊢
    have := h.booting.table_lt h.fits hfew hend hj h0
    omega
  refine ⟨h.behind htop, htab, fun x hx => ?_⟩
  have hlt : x.toNat / 0x1000 < n := by
    have := hx.2
    omega
  have hmap := (h.booting.mapped_low h.fits hfew hlt).translate
  rw [h.booting.kernelDir] at hmap
  rw [h.kernelDir]
  refine identity_kept (fun j _ _ => by rw [h.directory]) (fun j i hj h0 _ => h.pages _ ?_) hx.past_first hmap
  have := htab j hj (by rw [h.kernelDir, h.directory]; exact h0)
  rw [h.kernelDir, h.directory] at this
  exact this

end Kernel

namespace Forking

variable {k k₁ : Kernel} {dir : U32} {n top : Nat} {f b t : Seg} {tasks : TaskState} {s : Forking}

/-- **After `initialise_tasking`** the invariant holds, and the heap takes a directory. -/
theorem InitialiseTasking.inv (hs : InitialiseTasking k tasks s) (h : AfterBoot k k₁ dir n f b t)
    (htop : top + 512 ≤ dir.toNat)
    (h1 : tasks.next_pid = 1) : s.Inv top ∧ s.kernel.current_directory ∈ s.spaces.dirs ∧
      ∃ pre x, Loris.Inv s.kernel.heap s.kernel.mem 0xC0080000 (pre ++ [x]) ∧
        TailFits s.kernel pre x sizeofPageDirectory ∧ (frontGap x.addr).toNat + 0x3000 ≤ x.size.toNat := by
  obtain ⟨p, hstep, hlive, htasks⟩ := hs
  obtain ⟨hsound, p', k', ha, pre, x, hi, htail, hlarge⟩ := h.task
  have hop : (Spaces.start k).Sound (.alloc taskSize false) := hsound
  obtain ⟨segs, hsh⟩ := h.sharing.step hop hstep
  have hmap := (show StackMapped (Spaces.start k).kernel top from h.stackMapped htop).step h.sharing hop hstep
  have hkernel : s.kernel = k' := by
    obtain ⟨⟨-, fuel, q, k'', ha', he⟩, -⟩ := hstep
    show s.spaces.heap.kernel = _
    rw [he]
    cases fuel with
    | zero => cases ha'
    | succ fuel => exact (Prod.mk.inj (Option.some.inj (ha'.symm.trans (ha fuel)))).2
  have hcur : s.kernel.current_directory = k.current_directory := by
    have hsame := (hsound.makesNoTable.spaces (ha 0)).1
    rw [hkernel, hsame]
  refine ⟨⟨⟨segs, hsh⟩, hmap, ?_, fun q hq => ?_⟩, ?_, pre, x, by rw [hkernel]; exact hi, by rw [hkernel]; exact htail,
    hlarge⟩
  · rw [htasks]
    exact ⟨_, isRing_start h1 (@Spaces.Sharing.fresh _ _ hsh _ _ [] hlive (by simp))⟩
  · rw [htasks] at hq
    obtain rfl : q = p := List.mem_singleton.1 hq
    rw [hlive]
    exact List.mem_cons_self ..
  · rw [hcur, hstep.2]
    exact List.mem_singleton.2 rfl

/-- **`initialise_tasking` returns.** -/
theorem initialiseTasking_returns (h : AfterBoot k k₁ dir n f b t) (tasks : TaskState) :
    ∃ s, InitialiseTasking k tasks s := by
  obtain ⟨-, p, k', ha, -⟩ := h.task
  exact ⟨⟨⟨⟨k', (p, taskSize) :: (Spaces.start k).heap.live⟩, (Spaces.start k).dirs⟩, TaskRun.start tasks p⟩, p,
    ⟨⟨by decide, 1, p, k', ha 0, rfl⟩, rfl⟩, rfl, rfl⟩

/-- **The call of `fork` in `kernel_main`** is sound, and returns. -/
theorem Inv.fork_returns (h : s.Inv top) (hcur : s.kernel.current_directory ∈ s.spaces.dirs) {pre : List Seg} {x : Seg}
    (hi : Loris.Inv s.kernel.heap s.kernel.mem 0xC0080000 (pre ++ [x]))
    (hf : TailFits s.kernel pre x sizeofPageDirectory)
    (hlarge : (frontGap x.addr).toNat + 0x3000 ≤ x.size.toNat) :
    s.Sound .fork ∧ ∀ m resume, Elsewhere s.tasks.machine m → ∃ t d p id, s.Fork m resume t d p id := by
  obtain ⟨segs, hsh⟩ := h.sharing
  obtain ⟨hs, k', f, b, t, ha, ht⟩ := alloc_tail hi hf
  have hhole : ∀ {v : Spaces} {src d : U32} {k₁ : Kernel} {segs' : List Seg}, Spaces.Cloned s.spaces src d k₁ segs' v →
      ∃ i, v.kernel.heap.findSmallestHole v.kernel.mem (taskSize + sizeofHeader + sizeofFooter) false = some i := by
    intro v src d k₁ segs' hc
    refine Heap.findSmallestHole_exists (hc.inv_tail ha ht).toMarks (x := t) (by simp) ht.rest.1 ?_
    have h44 : (taskSize + sizeofHeader + sizeofFooter).toNat = 44 := rfl
    have h8196 : sizeofPageDirectory.toNat = 8196 := rfl
    have hrest := ht.rest
    have hblock := ht.block
    omega
  refine ⟨⟨hs, fun v hv => ?_⟩, fun m resume hm => ?_⟩
  · obtain ⟨d, k₁, segs', hc⟩ := hsh.clone_shared hs hv
    obtain ⟨i, hi⟩ := hhole hc
    exact .plain hi
  · obtain ⟨heq, segs', hc⟩ := @Spaces.Sharing.clone_eq _ _ hsh _ _ _ _ (.inr hcur) hs (ha 0)
    obtain ⟨i, hfind⟩ := hhole hc
    have hclone := (⟨.inr hcur, 1, _, _, _, heq, rfl⟩ : s.spaces.Step (.clone s.kernel.current_directory) _)
    have hshv := hc.sharing hsh (.inr hcur)
    generalize (⟨⟨k'.sharedClone _ _, _⟩, _⟩ : Spaces) = v at hc hfind hclone hshv
    have hsound : v.Sound (.alloc taskSize false) := .plain hfind
    obtain ⟨p, k₂, ha₂⟩ : ∃ p k₂, alloc 1 v.kernel taskSize false = some (p, k₂) := ⟨_, _, alloc_of_found 0 hfind⟩
    have halloc : v.Step (.alloc taskSize false) ⟨⟨k₂, (p, taskSize) :: v.heap.live⟩, v.dirs⟩ :=
      ⟨⟨by decide, 1, p, k₂, ha₂, rfl⟩, rfl⟩
    obtain ⟨segs₂, hsht⟩ := hshv.step hsound halloc
    obtain ⟨r, hr⟩ := h.ring
    have hfresh := @Spaces.Sharing.fresh _ _ hsht _ _ s.tasks.created rfl fun q hq => by
      rw [hc.live]
      exact List.mem_cons_of_mem _ (h.live q hq)
    obtain ⟨id, u, hfork⟩ := hr.fork_returns hm (hr.notMem hfresh) resume (b.addr + sizeofHeader)
    exact ⟨⟨⟨⟨k₂, (p, taskSize) :: v.heap.live⟩, v.dirs⟩, ⟨u, s.tasks.created ++ [p], s.tasks.selected⟩⟩, _, p, id,
      ⟨v, hclone, hc.dirs, halloc, rfl⟩, _, u, hfork, rfl⟩

end Forking

open Forking in
/-- **`fork` and the stack.**  In every run of sound calls from the state that `kernel_main` sets up, whatever `fork` is
called there, the child finds the frame of `fork` exactly when the parent leaves it as it was: the stack is one for
both.  The parent gets the child's id, and the bitmap spares the child's directory.  The call in `kernel_main` itself is
sound, and returns. -/
theorem fork_stack (fuel : Nat) {k : Kernel} (hs : AtStart k) (hp : 0x100000 ≤ k.placement_address.toNat)
    (hfit : BootFits k.placement_address) (hbit : k.BitmapAlone) : ∃ k₀ steps,
      (∀ loops, steps ≤ loops → initialisePaging (Kernel.alloc (fuel + 1)) loops k = some k₀) ∧
      ∀ tasks : TaskState, tasks.next_pid = 1 → (∃ s, InitialiseTasking k₀ tasks s) ∧
        ∀ s, InitialiseTasking k₀ tasks s →
          (s.Sound .fork ∧ ∀ m resume, Elsewhere s.tasks.machine m → ∃ t d p id, s.Fork m resume t d p id) ∧
          ∀ ops, (∀ l₁ op l₂ t, ops = l₁ ++ op :: l₂ → Reaches Step s l₁ t → t.Sound op) →
            ∀ l₁ l₂ t, ops = l₁ ++ l₂ → Reaches Step s l₁ t → t.Sound .fork →
              ∀ m resume u d p id, Elsewhere t.tasks.machine m → t.Fork m resume u d p id →
                id = (u.tasks.machine.tasks p).id ∧ u.spaces.Spared k.placement_address ∧
                ∀ parent_task ram l,
                  (∀ a ∈ frameWords parent_task m.ebp, OnStack k.placement_address.toNat a 4) →
                  (∀ w ∈ l, OnStack k.placement_address.toNat w.1 1) →
                  load (u.kernel.view t.kernel.current_directory ram) parent_task = m.current_task →
                  ((∀ c, FirstRuns u.tasks.machine p c → FindsFrame u.kernel t.kernel.current_directory ram
                      (u.kernel.storesThrough t.kernel.current_directory ram l) m resume parent_task c) ↔
                    LeavesFrame (u.kernel.view t.kernel.current_directory ram) parent_task m.ebp l) := by
  obtain ⟨M, hM, hbound⟩ := hfit
  obtain ⟨k₀, k₁, n, f, b, t, steps, -, hab, -, hrun⟩ := initialisePaging_spec fuel hs hp hM hbound
  refine ⟨k₀, steps, hrun, fun tasks h1 => ⟨initialiseTasking_returns hab tasks, fun s hinit => ?_⟩⟩
  obtain ⟨hinv, hcur, pre, x, hi, htail, hlarge⟩ := hinit.inv hab hbit.apart h1
  refine ⟨hinv.fork_returns hcur hi htail hlarge, fun ops hsound l₁ l₂ v hl hr hfs m resume u d p id hm hf => ?_⟩
  have halong : Along Step (fun s => s.Inv k.placement_address.toNat) s ops :=
    (Runs.guarded_iff.2 hsound).along (fun _ _ _ h hg hstep => h.step hg hstep) hinv
  have hv := along_iff.1 halong l₁ l₂ v hl hr
  obtain ⟨hu, hp0, hne, htask, hid⟩ := hv.forked hfs hm hf
  have htask' : u.tasks.machine.tasks p = ⟨(u.tasks.machine.tasks p).id, m.esp, m.ebp, resume, d, 0⟩ := by rw [htask]
  exact ⟨by rw [htask], hu.spared, fun parent_task ram l hframe hl hlocal =>
    findsFrame_iff (by omega) hid htask' hp0 hne hframe hl hlocal⟩

/-- The kernel as the image has it, with all that is loaded ending at 2 MB. -/
def imageAt2M : Kernel := { imageAt1M with placement_address := 0x200000 }

/-- The memory in which the local at `0x1FEFF0` is `parent_task`. -/
def frameAt (parent_task : U32) : Mem := store (fun _ => 0) 0x1FEFF0 parent_task

open Forking in
theorem fork_imageAt2M : ∃ k₀ steps,
    (∀ loops, steps ≤ loops → initialisePaging (Kernel.alloc 1) loops imageAt2M = some k₀) ∧
    ∃ s t m d p id, InitialiseTasking k₀ ⟨twoTasks.machine, 1⟩ s ∧ s.Inv 0x200000 ∧ s.Sound .fork ∧
      Elsewhere s.tasks.machine m ∧ m.ebp = 0x1FF000 ∧ s.Fork m 0x101000 t d p id := by
  have hfit : BootFits imageAt2M.placement_address := bootFits_iff.2 (by decide)
  obtain ⟨M, hM, hbound⟩ := hfit
  obtain ⟨k₀, k₁, n, f, b, t, steps, -, hab, -, hrun⟩ :=
    initialisePaging_spec 0 (k := imageAt2M) ⟨rfl, rfl⟩ (by decide) hM
    hbound
  have htop : 0x200000 + 512 ≤ (bootDirectory imageAt2M.placement_address).toNat := by decide
  obtain ⟨s, hinit⟩ := initialiseTasking_returns hab ⟨twoTasks.machine, 1⟩
  obtain ⟨hinv, hcur, pre, x, hi, htail, hlarge⟩ := hinit.inv hab htop rfl
  obtain ⟨hsound, hreturns⟩ := hinv.fork_returns hcur hi htail hlarge
  have hm : Elsewhere s.tasks.machine { s.tasks.machine with ebp := 0x1FF000 } := ⟨rfl, rfl, rfl⟩
  obtain ⟨t, d, p, id, hf⟩ := hreturns _ 0x101000 hm
  exact ⟨k₀, steps, hrun, s, t, _, d, p, id, hinit, hinv, hsound, hm, rfl, hf⟩

theorem frameWords_onStack : ∀ a ∈ frameWords 0x1FEFF0 0x1FF000, OnStack 0x200000 a 4 := by
  intro a ha
  simp only [frameWords, List.mem_cons, List.not_mem_nil, or_false] at ha
  rcases ha with rfl | rfl | rfl <;> exact ⟨by decide, by decide⟩

theorem load_frameAt {k : Kernel} {dir : U32} (h : ∀ x, OnStack 0x200000 x 1 → translate k dir x = some x) (v : U32) :
    load (k.view dir (frameAt v)) 0x1FEFF0 = v := by
  have hframe : load (k.view dir (frameAt v)) 0x1FEFF0 = load (frameAt v) 0x1FEFF0 := load_eq_iff.2 fun i hi =>
    view_identity _ (h _ ((frameWords_onStack _ (List.mem_cons_self ..)).byte (by decide) hi))
  rw [hframe]
  exact load_store_same ..

/-- A byte elsewhere on the stack, and the byte where EBP was saved: changed, and put back. -/
def restoring : List (U32 × Byte) := [(0x1FE000, 7), (0x1FF000, 1), (0x1FF000, 0)]

theorem lastStore_restoring : ∀ a ∈ frameWords 0x1FEFF0 0x1FF000, ∀ i, i < 4 →
    lastStore (a + BitVec.ofNat 32 i) restoring = if a = 0x1FF000 ∧ i = 0 then some 0 else none := by
  intro a ha
  simp only [frameWords, List.mem_cons, List.not_mem_nil, or_false] at ha
  rcases ha with rfl | rfl | rfl <;> decide

open Forking in
/-- A parent that puts back what it changes of the frame: the child finds it. -/
theorem fork_stack_restored : ∃ k₀ s t m d p id ram, InitialiseTasking k₀ ⟨twoTasks.machine, 1⟩ s ∧
    s.Fork m 0x101000 t d p id ∧ ∀ c, FirstRuns t.tasks.machine p c → FindsFrame t.kernel s.kernel.current_directory ram
      (t.kernel.storesThrough s.kernel.current_directory ram restoring) m 0x101000 0x1FEFF0 c := by
  obtain ⟨k₀, steps, hrun, s, t, m, d, p, id, hinit, hinv, hsound, hm, hebp, hf⟩ := fork_imageAt2M
  obtain ⟨k₀', steps', hrun', h⟩ := fork_stack 0 (k := imageAt2M) ⟨rfl, rfl⟩ (by decide) (bootFits_iff.2 (by decide))
    ⟨(apart_iff (bootFits_iff.2 (by decide))).2 (by decide), fun _ _ _ => rfl⟩
  obtain rfl : k₀' = k₀ := Option.some.inj
    ((hrun' (steps + steps') (by omega)).symm.trans (hrun (steps + steps') (by omega)))
  obtain ⟨-, hfork⟩ := (h ⟨twoTasks.machine, 1⟩ rfl).2 s hinit
  have hid := (hinv.forked hsound hm hf).2.2.2.2
  have honstack : ∀ w ∈ restoring, OnStack 0x200000 w.1 1 := by
    intro w hw
    simp only [restoring, List.mem_cons, List.not_mem_nil, or_false] at hw
    rcases hw with rfl | rfl | rfl <;> exact ⟨by decide, by decide⟩
  have hiff :=
    (hfork [] (fun l₁ op l₂ t hl _ => by simp at hl) [] [] s rfl rfl hsound m 0x101000 t d p id hm hf).2.2 0x1FEFF0
    (frameAt m.current_task) restoring (by rw [hebp]; exact frameWords_onStack) honstack
    (load_frameAt (fun x hx => (hid x hx).1) _)
  refine ⟨k₀', s, t, m, d, p, id, frameAt m.current_task, hinit, hf, hiff.2 fun a ha i hi v hv => ?_⟩
  rw [hebp] at ha
  rw [lastStore_restoring a ha i hi] at hv
  split at hv
  · next hat =>
    obtain ⟨rfl, rfl⟩ := hat
    rw [view_identity _ (hid _ ⟨by decide, by decide⟩).1, ← Option.some.inj hv]
    exact (store_apply_of_ge (fun _ => 0) m.current_task (by decide)).symm
  · cases hv

open Forking in
/-- A parent that stores a byte where its EBP was saved. -/
theorem fork_stack_overwritten : ∃ k₀ steps,
    (∀ loops, steps ≤ loops → initialisePaging (Kernel.alloc 1) loops imageAt2M = some k₀) ∧
      ∃ s t m d p id ram, InitialiseTasking k₀ ⟨twoTasks.machine, 1⟩ s ∧ s.Fork m 0x101000 t d p id ∧
        load (t.kernel.view s.kernel.current_directory ram) 0x1FEFF0 = m.current_task ∧
          ¬ ∀ c, FirstRuns t.tasks.machine p c → FindsFrame t.kernel s.kernel.current_directory ram
            (t.kernel.storesThrough s.kernel.current_directory ram [(0x1FF000, 1)]) m 0x101000 0x1FEFF0 c := by
  obtain ⟨k₀, steps, hrun, s, t, m, d, p, id, hinit, hinv, hsound, hm, hebp, hf⟩ := fork_imageAt2M
  obtain ⟨-, hp0, hne, htask, hid⟩ := hinv.forked hsound hm hf
  have htask' : t.tasks.machine.tasks p = ⟨(t.tasks.machine.tasks p).id, m.esp, m.ebp, 0x101000, d, 0⟩ := by rw [htask]
  have hlocal := load_frameAt (fun x hx => (hid x hx).1) m.current_task
  refine ⟨k₀, steps, hrun, s, t, m, d, p, id, frameAt m.current_task, hinit, hf, hlocal, fun h => ?_⟩
  have hleaves := (findsFrame_iff (by decide) hid htask' hp0 hne (by rw [hebp]; exact frameWords_onStack)
    (fun w hw => by rw [List.mem_singleton.1 hw]; exact ⟨by decide, by decide⟩) hlocal).1 h
  have hv := hleaves 0x1FF000 (by rw [hebp]; simp [frameWords]) 0 (by decide) 1 rfl
  rw [view_identity _ (hid _ ⟨by decide, by decide⟩).1] at hv
  have h0 : frameAt m.current_task 0x1FF000 = 0 := store_apply_of_ge _ _ (by decide)
  rw [show (0x1FF000 : U32) + BitVec.ofNat 32 0 = 0x1FF000 from rfl, h0] at hv
  cases hv

end Loris
