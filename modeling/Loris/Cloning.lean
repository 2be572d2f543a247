import Loris.Boot
import Loris.InOrder
/-!
# Cloning — `clone_table` and `clone_directory`

A clone shares the tables that `kernel_directory` has too, and copies the others.  The pages that `copy_page_physical`
is to copy are returned in order, as pairs of physical addresses.  `clone_table` clears as many bytes as a directory
has, twice its table, so that what lies behind the table is cleared as well (`clear`).
-/
namespace Loris

open ByteMem

namespace Kernel

/-- `memset(p, 0, n)`, with the entries of page tables and the words of directories that start in the range. -/
def clear (k : Kernel) (p : U32) (n : Nat) : Kernel :=
  let cleared (a : U32) (i : Nat) : Bool := decide (i < 1024 ∧ (a + 4 * BitVec.ofNat 32 i - p).toNat < n)
  { k with
    mem := fill k.mem p 0 n
    pageTables := fun t i => if cleared t i then Page.zero else k.pageTables t i
    directories := fun d =>
      { tables := fun i => if cleared d i then 0 else (k.directories d).tables i
        tablesPhysical := fun i => if cleared (d + 0x1000) i then 0 else (k.directories d).tablesPhysical i
        physicalAddress := if cleared (d + 0x2000) 0 then 0 else (k.directories d).physicalAddress } }

/-- The flags that are set in `src` are set in `dst`. -/
def cloneFlags (src dst : Page) : Page :=
  { dst with
    present := src.present || dst.present
    readWrite := src.readWrite || dst.readWrite
    user := src.user || dst.user
    accessed := src.accessed || dst.accessed
    dirty := src.dirty || dst.dirty }

/-- `page.Frame * 0x1000`. -/
def frameAddress (p : Page) : U32 := p.frame.setWidth 32 * 0x1000

/-- The loop of `clone_table` from entry `i` on. -/
def cloneEntries (table src : U32) : Nat → Nat → Kernel → Option (List (U32 × U32) × Kernel)
  | 0, _, k => some ([], k)
  | n + 1, i, k =>
    if (k.page ⟨src, i⟩).frame = 0 then cloneEntries table src n (i + 1) k
    else
      (k.allocFrame ⟨table, i⟩ false false).bind fun k =>
        let k := k.setPage ⟨table, i⟩ (cloneFlags (k.page ⟨src, i⟩) (k.page ⟨table, i⟩))
        (cloneEntries table src n (i + 1) k).map fun r =>
          ((frameAddress (k.page ⟨src, i⟩), frameAddress (k.page ⟨table, i⟩)) :: r.1, r.2)

/-- `clone_table`: the table, what was written through `physAddr`, and the copies. -/
def cloneTable (alloc : Allocator) (k : Kernel) (src : U32) : Option (U32 × Option U32 × List (U32 × U32) × Kernel) :=
  (kmalloc alloc k sizeofPageTable true).bind fun (table, physAddr, k) =>
    -- the size cleared is that of a directory
    (cloneEntries table src 1024 0 (k.clear table sizeofPageDirectory.toNat)).map fun r => (table, physAddr, r.1, r.2)

/-- `dir->Tables[i] = table; dir->TablesPhysical[i] = physical`. -/
def setSlot (k : Kernel) (dir : U32) (i : Nat) (table physical : U32) : Kernel :=
  k.setDirectory dir { k.directories dir with
    tables := fun j => if j = i then table else (k.directories dir).tables j
    tablesPhysical := fun j => if j = i then physical else (k.directories dir).tablesPhysical j }

/-- The loop of `clone_directory` from slot `i` on. -/
def cloneSlots (alloc : Allocator) (dir src : U32) : Nat → Nat → Kernel → Option (List (U32 × U32) × Kernel)
  | 0, _, k => some ([], k)
  | n + 1, i, k =>
    let table := (k.directories src).tables i
    if table = 0 then cloneSlots alloc dir src n (i + 1) k
    else if (k.directories k.kernel_directory).tables i = table then
      cloneSlots alloc dir src n (i + 1) (k.setSlot dir i table ((k.directories src).tablesPhysical i))
    else
      (cloneTable alloc k table).bind fun (table, phys, copies, k) =>
        (cloneSlots alloc dir src n (i + 1) (k.setSlot dir i table (phys.getD k.uninit ||| 0x7))).map fun r =>
          (copies ++ r.1, r.2)

/-- `clone_directory`. -/
def cloneDirectory (alloc : Allocator) (k : Kernel) (src : U32) : Option (U32 × List (U32 × U32) × Kernel) :=
  (kmalloc alloc k sizeofPageDirectory true).bind fun (dir, phys, k) =>
    let k := k.clear dir sizeofPageDirectory.toNat
    let k := k.setDirectory dir { k.directories dir with physicalAddress := phys.getD k.uninit + 0x1000 }
    (cloneSlots alloc dir src 1024 0 k).map fun r => (dir, r.1, r.2)

/-! ## A clone that shares every table -/

variable {k k' : Kernel} {dir src : U32}

theorem setDirectory_self (k : Kernel) (dir : U32) (d : PageDirectory) : (k.setDirectory dir d).directories dir = d :=
  if_pos rfl

theorem setDirectory_other {x : U32} (k : Kernel) (d : PageDirectory) (h : x ≠ dir) :
    (k.setDirectory dir d).directories x = k.directories x := if_neg h

theorem setDirectory_directories (k : Kernel) (dir : U32) : k.setDirectory dir (k.directories dir) = k := by
  have h : (fun x => if x = dir then k.directories dir else k.directories x) = k.directories := by
    funext x
    split
    · rename_i he; rw [he]
    · rfl
  unfold setDirectory
  rw [h]

theorem setDirectory_twice (k : Kernel) (dir : U32) (d e : PageDirectory) :
    (k.setDirectory dir d).setDirectory dir e = k.setDirectory dir e := by
  have h : (fun x => if x = dir then e else if x = dir then d else k.directories x) =
      fun x => if x = dir then e else k.directories x := by
    funext x
    split <;> rfl
  unfold setDirectory
  simp only
  rw [h]

/-- The directory `d` with the slots of `e` from `i` on that are taken. -/
def shareSlots (d e : PageDirectory) (i : Nat) : PageDirectory :=
  { d with
    tables := fun j => if i ≤ j ∧ j < 1024 ∧ e.tables j ≠ 0 then e.tables j else d.tables j
    tablesPhysical := fun j => if i ≤ j ∧ j < 1024 ∧ e.tables j ≠ 0 then e.tablesPhysical j else d.tablesPhysical j }

theorem share_end (d e : PageDirectory) {i : Nat} (hi : 1024 ≤ i) : shareSlots d e i = d := by
  have h : ∀ j, ¬ (i ≤ j ∧ j < 1024 ∧ e.tables j ≠ 0) := fun j hj => by omega
  unfold shareSlots
  simp only [h, if_false]

theorem slots_step {p : Nat → Prop} [DecidablePred p] (f g : Nat → U32) {i : Nat} (hi : i < 1024) (hp : p i) :
    (fun j => if i + 1 ≤ j ∧ j < 1024 ∧ p j then f j else if j = i then f i else g j) =
      fun j => if i ≤ j ∧ j < 1024 ∧ p j then f j else g j := by
  funext j
  by_cases hj : j = i
  · subst hj
    rw [if_neg (by omega), if_pos rfl, if_pos ⟨Nat.le_refl j, hi, hp⟩]
  · rw [if_neg hj]
    exact if_congr (and_congr_left fun _ => by omega) rfl rfl

/-- **The loop over slots that `kernel_directory` has too** copies the slots and makes no table. -/
theorem cloneSlots_shared {alloc : Allocator} (hsrc : src ≠ dir) : ∀ {n i : Nat} {k : Kernel}, i + n = 1024 →
    k.kernel_directory ≠ dir →
    (∀ j, j < 1024 → (k.directories src).tables j ≠ 0 →
      (k.directories k.kernel_directory).tables j = (k.directories src).tables j) →
    cloneSlots alloc dir src n i k =
      some ([], k.setDirectory dir (shareSlots (k.directories dir) (k.directories src) i))
  | 0, i, k, hi, _, _ => by
    rw [share_end _ _ (by omega), setDirectory_directories]
    rfl
  | n + 1, i, k, hi, hker, hshare => by
    unfold cloneSlots
    by_cases h0 : (k.directories src).tables i = 0
    · simp only [if_pos h0]
      rw [cloneSlots_shared hsrc (by omega) hker hshare]
      have h : ∀ j, (i + 1 ≤ j ∧ j < 1024 ∧ (k.directories src).tables j ≠ 0) ↔
          i ≤ j ∧ j < 1024 ∧ (k.directories src).tables j ≠ 0 := fun j =>
        ⟨fun hj => ⟨by omega, hj.2⟩, fun hj => ⟨Nat.lt_of_le_of_ne hj.1 fun he => hj.2.2 (he ▸ h0), hj.2⟩⟩
      unfold shareSlots
      simp only [h]
    · simp only [if_neg h0, if_pos (hshare i (by omega) h0)]
      have hsrc' : ∀ a b, (k.setSlot dir i a b).directories src = k.directories src := fun a b =>
        setDirectory_other _ _ hsrc
      have hker' : ∀ a b, (k.setSlot dir i a b).directories k.kernel_directory = k.directories k.kernel_directory :=
        fun a b => setDirectory_other _ _ hker
      rw [cloneSlots_shared (k := k.setSlot dir i _ _) hsrc (by omega) hker fun j hj hne => by
        rw [hsrc'] at hne ⊢
        exact (congrArg (PageDirectory.tables · j) (hker' _ _)).trans (hshare j hj hne), hsrc']
      unfold setSlot
      rw [setDirectory_self, setDirectory_twice]
      unfold shareSlots
      simp only [slots_step (p := fun j => (k.directories src).tables j ≠ 0) _ _ (show i < 1024 by omega) h0]

theorem word_outside {a p : U32} {i n m : Nat} (hi : 4 * i < m) (ha : a.toNat + m ≤ 2 ^ 32) (hp : p.toNat + n ≤ 2 ^ 32)
    (h : Apart a.toNat m p.toNat n) : ¬ (a + 4 * BitVec.ofNat 32 i - p).toNat < n := by
  have h4 : (4 : U32).toNat = 4 := rfl
  have hw : (a + 4 * BitVec.ofNat 32 i).toNat = a.toNat + 4 * i := by
    rw [BitVec.toNat_add, BitVec.toNat_mul, BitVec.toNat_ofNat, h4]
    omega
  unfold Apart at h
  rw [BitVec.toNat_sub, hw]
  omega

theorem word_inside {p x : U32} {n : Nat} (h : x.toNat < n) : (p + x - p).toNat < n := by
  rw [add_sub_self]
  exact h

theorem clear_page {p : U32} {n : Nat} {q : PagePtr} (hp : p.toNat + n ≤ 2 ^ 32) (hq : q.table.toNat + 0x1000 ≤ 2 ^ 32)
    (h : Apart q.table.toNat 0x1000 p.toNat n) : (k.clear p n).page q = k.page q := by
  unfold page clear
  simp only
  refine if_neg fun hc => ?_
  obtain ⟨hi, hc⟩ := of_decide_eq_true hc
  exact word_outside (by omega) hq hp h hc

theorem clear_directory {p d : U32} {n : Nat} (hp : p.toNat + n ≤ 2 ^ 32) (hd : d.toNat + 8196 ≤ 2 ^ 32)
    (h : Apart d.toNat 8196 p.toNat n) : (k.clear p n).directories d = k.directories d := by
  have h1 : (d + 0x1000).toNat = d.toNat + 0x1000 := by
    rw [BitVec.toNat_add]
    show (d.toNat + 0x1000) % 2 ^ 32 = _
    omega
  have h2 : (d + 0x2000).toNat = d.toNat + 0x2000 := by
    rw [BitVec.toNat_add]
    show (d.toNat + 0x2000) % 2 ^ 32 = _
    omega
  have hno : ∀ {a : U32} {m i : Nat}, d.toNat ≤ a.toNat → 4 * i < m → a.toNat + m ≤ d.toNat + 8196 →
      ¬ (i < 1024 ∧ (a + 4 * BitVec.ofNat 32 i - p).toNat < n) := fun hlo hi hhi hc =>
    word_outside hi (by omega) hp (by unfold Apart at *; omega) hc.2
  unfold clear
  simp only [decide_eq_true_eq]
  have ht : ∀ i, (if i < 1024 ∧ (d + 4 * BitVec.ofNat 32 i - p).toNat < n then 0 else (k.directories d).tables i) =
      (k.directories d).tables i := fun i => by
    by_cases hi : i < 1024
    · rw [if_neg (hno (m := 0x1000) (Nat.le_refl _) (by omega) (by omega))]
    · rw [if_neg fun hc => hi hc.1]
  have hph : ∀ i, (if i < 1024 ∧ (d + 0x1000 + 4 * BitVec.ofNat 32 i - p).toNat < n then 0
      else (k.directories d).tablesPhysical i) = (k.directories d).tablesPhysical i := fun i => by
    by_cases hi : i < 1024
    · rw [if_neg (hno (m := 0x1000) (by omega) (by omega) (by omega))]
    · rw [if_neg fun hc => hi hc.1]
  rw [if_neg (hno (m := 4) (by omega) (by omega) (by omega)), funext ht, funext hph]

theorem clear_self {p : U32} {i : Nat} (hi : i < 1024) :
    ((k.clear p 8196).directories p).tables i = 0 ∧ ((k.clear p 8196).directories p).tablesPhysical i = 0 := by
  have h4 : (4 : U32).toNat = 4 := rfl
  have h1000 : (0x1000 : U32).toNat = 0x1000 := rfl
  have hw : (4 * BitVec.ofNat 32 i).toNat = 4 * i := by
    rw [BitVec.toNat_mul, BitVec.toNat_ofNat, h4]
    omega
  unfold clear
  simp only [decide_eq_true_eq]
  refine ⟨if_pos ⟨hi, word_inside (by omega)⟩, if_pos ⟨hi, ?_⟩⟩
  rw [BitVec.add_assoc]
  refine word_inside ?_
  rw [BitVec.toNat_add, h1000]
  omega

/-- What `clone_directory` leaves at `dir` when it makes no table. -/
def sharedClone (k : Kernel) (dir src : U32) : Kernel :=
  (k.clear dir 8196).setDirectory dir (shareSlots
    { (k.clear dir 8196).directories dir with physicalAddress := k.uninit + 0x1000 }
    ((k.clear dir 8196).directories src) 0)

/-- **A clone that shares every table**, made in the heap. -/
theorem cloneDirectory_shared {alloc : Allocator} {k₁ : Kernel} (hk : k.kheap ≠ 0)
    (ha : alloc k sizeofPageDirectory true = some (dir, k₁)) (hdir : dir.toNat + 8196 ≤ 2 ^ 32)
    (hsrc : src.toNat + 8196 ≤ 2 ^ 32) (hsrc' : Apart src.toNat 8196 dir.toNat 8196)
    (hker : k₁.kernel_directory.toNat + 8196 ≤ 2 ^ 32) (hker' : Apart k₁.kernel_directory.toNat 8196 dir.toNat 8196)
    (hshare : ∀ j, j < 1024 → (k₁.directories src).tables j ≠ 0 →
      (k₁.directories k₁.kernel_directory).tables j = (k₁.directories src).tables j) :
    cloneDirectory alloc k src = some (dir, [], k₁.sharedClone dir src) := by
  have hne : ∀ {d : U32}, Apart d.toNat 8196 dir.toNat 8196 → d ≠ dir := fun h he => by
    subst he
    unfold Apart at h
    omega
  have h1 : kmalloc alloc k sizeofPageDirectory true = some (dir, none, k₁) := by
    unfold kmalloc
    rw [if_pos hk, ha]
    rfl
  generalize hd : ({ (k₁.clear dir 8196).directories dir with physicalAddress := k₁.uninit + 0x1000 }
    : PageDirectory) = d
  have hs : ((k₁.clear dir 8196).setDirectory dir d).directories src = k₁.directories src :=
    (setDirectory_other _ d (hne hsrc')).trans (clear_directory hdir hsrc hsrc')
  have hk : ((k₁.clear dir 8196).setDirectory dir d).directories k₁.kernel_directory =
      k₁.directories k₁.kernel_directory :=
    (setDirectory_other _ d (hne hker')).trans (clear_directory hdir hker hker')
  have hloop : cloneSlots alloc dir src 1024 0 ((k₁.clear dir 8196).setDirectory dir d) = _ :=
    cloneSlots_shared (hne hsrc') rfl (hne hker') fun j hj h0 => by
      rw [hs] at h0 ⊢
      exact (congrArg (PageDirectory.tables · j) hk).trans (hshare j hj h0)
  unfold cloneDirectory sharedClone
  rw [h1, Option.bind_some]
  simp only [Option.getD_none]
  rw [hd]
  show Option.map _ (cloneSlots alloc dir src 1024 0 ((k₁.clear dir 8196).setDirectory dir
    { (k₁.clear dir 8196).directories dir with physicalAddress := k₁.uninit + 0x1000 })) = _
  rw [hd, hloop, Option.map_some, setDirectory_self, setDirectory_twice, hs, clear_directory hdir hsrc hsrc']

theorem cloneDirectory_alloc {alloc : Allocator} {copies : List (U32 × U32)} (hk : k.kheap ≠ 0)
    (h : cloneDirectory alloc k src = some (dir, copies, k')) :
    ∃ k₁, alloc k sizeofPageDirectory true = some (dir, k₁) := by
  unfold cloneDirectory at h
  obtain ⟨⟨d, phys, k₁⟩, hm, h⟩ := Option.bind_eq_some_iff.1 h
  obtain ⟨r, -, hr⟩ := Option.map_eq_some_iff.1 h
  obtain ⟨rfl, -⟩ := Prod.mk.inj hr
  unfold kmalloc at hm
  rw [if_pos hk] at hm
  obtain ⟨⟨d', k₂⟩, ha, hr⟩ := Option.map_eq_some_iff.1 hm
  obtain ⟨rfl, hr⟩ := Prod.mk.inj hr
  exact ⟨k₂, ha⟩

theorem sharedClone_self {k : Kernel} (hdir : dir.toNat + 8196 ≤ 2 ^ 32) (hsrc : src.toNat + 8196 ≤ 2 ^ 32)
    (h : Apart src.toNat 8196 dir.toNat 8196) {i : Nat} (hi : i < 1024) :
    ((k.sharedClone dir src).directories dir).tables i = (k.directories src).tables i ∧
      ((k.sharedClone dir src).directories dir).tablesPhysical i =
        if (k.directories src).tables i = 0 then 0 else (k.directories src).tablesPhysical i := by
  obtain ⟨ht, hp⟩ := clear_self (k := k) (p := dir) hi
  unfold sharedClone
  rw [setDirectory_self, clear_directory hdir hsrc h]
  unfold shareSlots
  simp only [Nat.zero_le, hi, true_and]
  by_cases h0 : (k.directories src).tables i = 0
  · simp only [h0, ne_eq, not_true_eq_false, if_false, if_true]
    exact ⟨ht, hp⟩
  · simp only [h0, ne_eq, not_false_eq_true, if_true, if_false, and_self]

theorem sharedClone_physicalAddress (k : Kernel) (dir src : U32) :
    ((k.sharedClone dir src).directories dir).physicalAddress = k.uninit + 0x1000 := by
  unfold sharedClone
  rw [setDirectory_self]
  rfl

theorem sharedClone_other {k : Kernel} {d : U32} (hdir : dir.toNat + 8196 ≤ 2 ^ 32) (hd : d.toNat + 8196 ≤ 2 ^ 32)
    (h : Apart d.toNat 8196 dir.toNat 8196) : (k.sharedClone dir src).directories d = k.directories d := by
  have hne : d ≠ dir := fun he => by
    subst he
    unfold Apart at h
    omega
  exact (setDirectory_other _ _ hne).trans (clear_directory hdir hd h)

/-! ## What the heap leaves alone -/

/-- The same kernel, the heap and its pages apart. -/
def SameSpaces (k k' : Kernel) : Prop :=
  k' = { k with
    mem := k'.mem
    heap := k'.heap
    frames := k'.frames
    pageTables := k'.pageTables }

theorem SameSpaces.trans {k₁ k₂ k₃ : Kernel} (h₁ : SameSpaces k₁ k₂) (h₂ : SameSpaces k₂ k₃) : SameSpaces k₁ k₃ := by
  unfold SameSpaces at *
  rw [h₂, h₁]

theorem SameButPages.spaces (h : SameButPages k k') : SameSpaces k k' := by
  unfold SameButPages at h
  unfold SameSpaces
  rw [h]

/-- The page entries that hold a frame are as they were. -/
def KeepsPages (k k' : Kernel) : Prop := ∀ q, (k.page q).frame ≠ 0 → k'.page q = k.page q

theorem KeepsPages.trans {k₁ k₂ k₃ : Kernel} (h₁ : KeepsPages k₁ k₂) (h₂ : KeepsPages k₂ k₃) : KeepsPages k₁ k₃ :=
  fun q hq => (h₂ q (by rw [h₁ q hq]; exact hq)).trans (h₁ q hq)

theorem allocFrame_keeps {p : PagePtr} {a b : Bool} (h : k.allocFrame p a b = some k') : KeepsPages k k' := by
  rcases allocFrame_cases h with ⟨-, hq, -⟩ | ⟨hp, hq, -⟩
  · exact fun q _ => hq q
  · exact fun q hne => hq q fun he => hne (by rw [he]; exact hp)

/-- **A page that is mapped to itself stays so**, past the first page: its entry holds a frame, and such entries stay.
-/
theorem identity_kept {x : U32}
    (htables : ∀ j, j < 1024 → (k.directories dir).tables j ≠ 0 →
      (k'.directories dir).tables j = (k.directories dir).tables j)
    (hpages : ∀ j i, j < 1024 → (k.directories dir).tables j ≠ 0 →
      (k.page ⟨(k.directories dir).tables j, i⟩).frame ≠ 0 →
        k'.page ⟨(k.directories dir).tables j, i⟩ = k.page ⟨(k.directories dir).tables j, i⟩)
    (hx : 0x1000 ≤ x.toNat) (h : translate k dir x = some x) : translate k' dir x = some x := by
  have hj := tableIndex_lt x
  unfold Kernel.translate lookupPage at h ⊢
  generalize tableIndex x = j at hj h ⊢
  by_cases h0 : (k.directories dir).tables j = 0
  · rw [if_neg (not_not.2 h0)] at h
    cases h
  · rw [if_pos h0, Option.bind_some] at h
    rw [htables j hj h0, if_pos h0, Option.bind_some, hpages j _ hj h0 fun hf => ?_]
    · exact h
    · rw [hf] at h
      split at h
      · have he := congrArg BitVec.toNat (Option.some.inj h)
        have hm : (x % 0x1000).toNat = x.toNat % 0x1000 := BitVec.toNat_umod
        have hz : (0 : BitVec 20).setWidth 32 * 0x1000 + x % 0x1000 = x % 0x1000 := by simp
        rw [hz, hm] at he
        omega
      · cases h

/-- **Alloc makes no page table**: each of its passes finds a hole, or finds none and comes to tables that are there. -/
inductive MakesNoTable : Kernel → U32 → Bool → Prop where
  | found {k size al i} (hfind : k.heap.findSmallestHole k.mem (size + sizeofHeader + sizeofFooter) al = some i) :
      MakesNoTable k size al
  | grow {k size al} (hfind : k.heap.findSmallestHole k.mem (size + sizeofHeader + sizeofFooter) al = none)
      (htables : k.tablesPresent
        (expandSize (k.heap.endAddress - k.heap.startAddress + (size + sizeofHeader + sizeofFooter))) (0x100000 + 1)
        (k.heap.endAddress - k.heap.startAddress) = true)
      (hretry : ∀ fuel k₂, k.grow (alloc fuel) (size + sizeofHeader + sizeofFooter) = some k₂ →
        MakesNoTable k₂ size al) : MakesNoTable k size al

theorem AllocSound.makesNoTable {size : U32} {al : Bool} (h : AllocSound k size al) : MakesNoTable k size al := by
  induction h with
  | plain hfind => exact .found hfind
  | aligned hfind => exact .found hfind
  | expand hfind htables _ _ _ ih => exact .grow hfind htables ih

theorem expandLoop_keeps {f : Allocator} {e : U32} : ∀ {n : Nat} {k k' : Kernel} {i : U32},
    k.tablesPresent e n i = true → expandLoop f e n k i = some k' → KeepsPages k k'
  | 0, _, _, _, _, h => by cases h
  | n + 1, k, k', i, ht, h => by
    unfold expandLoop at h
    unfold tablesPresent at ht
    by_cases hi : i < e
    · rw [if_pos hi] at h ht
      rw [Bool.and_eq_true] at ht
      obtain ⟨p, hp⟩ := Option.isSome_iff_exists.1 ht.1
      rw [getPage_of_lookup hp, Option.bind_some] at h
      obtain ⟨k₁, hk₁, h⟩ := Option.bind_eq_some_iff.1 h
      exact (allocFrame_keeps hk₁).trans
        (expandLoop_keeps ((tablesPresent_same (allocFrame_same hk₁) e n _).trans ht.2) h)
    · rw [if_neg hi] at h
      obtain rfl := Option.some.inj h
      exact fun _ _ => rfl

theorem grow_spaces {f : Allocator} {n : U32} {k₂ : Kernel}
    (ht : k.tablesPresent (expandSize (k.heap.endAddress - k.heap.startAddress + n)) (0x100000 + 1)
      (k.heap.endAddress - k.heap.startAddress) = true) (h : k.grow f n = some k₂) :
    SameSpaces k k₂ ∧ KeepsPages k k₂ := by
  unfold grow expand at h
  obtain ⟨k₁, hk₁, rfl⟩ := Option.map_eq_some_iff.1 h
  obtain ⟨k₀, hk₀, rfl⟩ := Option.map_eq_some_iff.1 hk₁
  have hs := expandLoop_same ht hk₀
  have hp := expandLoop_keeps ht hk₀
  refine ⟨?_, fun q hq => hp q hq⟩
  unfold SameSpaces
  simp only
  rw [hs]

/-- **Alloc leaves the directories alone when it makes no table**, and every entry that holds a frame. -/
theorem MakesNoTable.spaces {size p : U32} {al : Bool} (h : MakesNoTable k size al) : ∀ {fuel : Nat},
    alloc fuel k size al = some (p, k') → SameSpaces k k' ∧ KeepsPages k k' := by
  induction h with
  | found hfind =>
    intro fuel ha
    obtain ⟨-, rfl⟩ := alloc_found hfind ha
    exact ⟨rfl, fun _ _ => rfl⟩
  | grow hfind htables _ ih =>
    intro fuel ha
    obtain ⟨n, k₂, -, hk₂, ha⟩ := alloc_grown hfind ha
    obtain ⟨hs, hp⟩ := grow_spaces htables hk₂
    obtain ⟨hs', hp'⟩ := ih n k₂ hk₂ ha
    exact ⟨hs.trans hs', hp.trans hp'⟩

theorem contract_spaces {x n : U32} (h : k.contract x = some (n, k')) : SameSpaces k k' := by
  unfold contract at h
  obtain ⟨k₁, hk₁, he⟩ := Option.map_eq_some_iff.1 h
  have hs := contractLoop_same hk₁
  obtain ⟨-, rfl⟩ := Prod.mk.inj he
  unfold SameSpaces
  simp only
  rw [hs]

theorem contractEnd_spaces {f : Heap.Freeing} (h : contractEnd k f = some k') : SameSpaces k k' := by
  unfold contractEnd at h
  split at h
  · obtain ⟨⟨n, k₁⟩, hk₁, h⟩ := Option.map_eq_some_iff.1 h
    refine (contract_spaces hk₁).trans ?_
    simp only at h
    split at h
    · obtain rfl := h; rfl
    · split at h
      · obtain rfl := h; rfl
      · obtain rfl := h; rfl
  · obtain rfl := Option.some.inj h; rfl

theorem free_spaces {p : U32} (h : k.free p = some k') : SameSpaces k k' := by
  unfold free at h
  split at h
  · obtain rfl := Option.some.inj h; rfl
  · obtain ⟨k₁, hk₁, h⟩ := Option.map_eq_some_iff.1 h
    have hs := contractEnd_spaces hk₁
    have hs : SameSpaces k k₁ := by
      unfold SameSpaces at hs ⊢
      rw [hs]
    refine hs.trans ?_
    split at h
    · obtain rfl := h; rfl
    · obtain rfl := h; rfl

end Kernel

end Loris
