import Loris.HeapRuns
import Loris.LibC
/-!
# Initrd — the ramdisk from its image to `read_fs`

`initialise_initrd` relocates the offsets of the file headers in place and makes a node for each file; `finddir_fs`
finds a node by its name, and `read_fs` copies a clamped part of the file.  The names of the nodes are in memory, at the
addresses of the nodes; the rest of a node is in a typed store.  Over a well-formed image every file is found by its
name and read in full, for every chunk size (`ramdisk`).

What `kmalloc` returns, and what it does to the memory, is a parameter (`Storage`).
-/
namespace Loris

open ByteMem

inductive ReadFn where
  | initrd_read

inductive ReaddirFn where
  | initrd_readdir

inductive FinddirFn where
  | initrd_finddir

/-- `fs_node`; the name is in memory. -/
structure FsNode where
  flags : U32
  inode : U32
  length : U32
  read : Option ReadFn
  readdir : Option ReaddirFn
  finddir : Option FinddirFn

def fsFile : U32 := 0x01
def fsDirectory : U32 := 0x02
def sizeofFsNode : U32 := 184
def sizeofInitrdHeader : U32 := 4
def sizeofFileHeader : U32 := 76

/-- `&header->name`, `&header->offset` and `&header->length` of an `initrd_file_header_t`. -/
def fieldName (header : U32) : U32 := header + 1
def fieldOffset (header : U32) : U32 := header + 68
def fieldLength (header : U32) : U32 := header + 72

/-- The memory, the nodes, and the globals of `initrd.cpp`. -/
structure Ramdisk where
  mem : Mem
  nodes : U32 → FsNode
  initrd_header : U32
  file_headers : U32
  initrd_root : U32
  initrd_dev : U32
  root_nodes : U32
  nroot_nodes : U32

/-- The pointers that `kmalloc` returns for the root, `/dev` and the file nodes, and what each call does to the memory.
-/
structure Storage where
  root : U32
  dev : U32
  nodes : U32
  touch : Nat → Mem → Mem

namespace Ramdisk

def nameDev : List Byte := [0x64, 0x65, 0x76]
def nameInitrd : List Byte := [0x69, 0x6e, 0x69, 0x74, 0x72, 0x64]

/-- `&file_headers[i]`. -/
def fileHeader (s : Ramdisk) (i : U32) : U32 := s.file_headers + sizeofFileHeader * i

/-- `&root_nodes[i]`. -/
def rootNode (s : Ramdisk) (i : U32) : U32 := s.root_nodes + sizeofFsNode * i

/-- `initrd_read`. -/
def initrdRead (s : Ramdisk) (node offset size buffer : U32) : U32 × Ramdisk :=
  let header := s.fileHeader (s.nodes node).inode
  let length := load s.mem (fieldLength header)
  if offset > length then (0, s)
  else
    let size := if offset + size > length then length - offset else size
    (size, { s with mem := memcpy s.mem buffer (load s.mem (fieldOffset header) + offset) size.toNat })

/-- `read_fs`. -/
def readFs (s : Ramdisk) (node offset size buffer : U32) : U32 × Ramdisk :=
  match (s.nodes node).read with
  | some .initrd_read => s.initrdRead node offset size buffer
  | none => (0, s)

/-- The loop of `initrd_finddir` from `i` on; 0 is the null pointer. -/
def finddirLoop (fuel : Nat) (s : Ramdisk) (name : U32) : Nat → U32 → Option U32
  | 0, _ => none
  | n + 1, i =>
    if i.slt s.nroot_nodes then
      (strcmp fuel (bytesFrom s.mem name) (bytesFrom s.mem (s.rootNode i))).bind fun r =>
        if r = 0 then some (s.rootNode i) else s.finddirLoop fuel name n (i + 1)
    else some 0

/-- `initrd_finddir`. -/
def initrdFinddir (fuel : Nat) (s : Ramdisk) (node name : U32) : Option U32 :=
  if node = s.initrd_root then
    (strcmp fuel (bytesFrom s.mem name) (literal nameDev)).bind fun r =>
      if r = 0 then some s.initrd_dev else s.finddirLoop fuel name fuel 0
  else s.finddirLoop fuel name fuel 0

/-- `finddir_fs`. -/
def finddirFs (fuel : Nat) (s : Ramdisk) (node name : U32) : Option U32 :=
  if (s.nodes node).flags &&& 0x7 ≠ fsDirectory ∨ (s.nodes node).readdir.isNone then some 0
  else
    match (s.nodes node).finddir with
    | some .initrd_finddir => s.initrdFinddir fuel node name
    | none => some 0

/-- What a directory's node is set to. -/
def directory : FsNode := ⟨fsDirectory, 0, 0, none, some .initrd_readdir, some .initrd_finddir⟩

/-- `initialise_initrd` up to its loop. -/
def makeRoots (st : Storage) (s : Ramdisk) (location : U32) : Ramdisk :=
  let m := strcpyLiteral (st.touch 0 s.mem) st.root nameInitrd
  let m := strcpyLiteral (st.touch 1 m) st.dev nameDev
  let m := st.touch 2 m
  { mem := m
    nodes := fun p => if p = st.dev then directory else if p = st.root then directory else s.nodes p
    initrd_header := location
    file_headers := location + sizeofInitrdHeader
    initrd_root := st.root
    initrd_dev := st.dev
    root_nodes := st.nodes
    nroot_nodes := load m location }

/-- The body of the loop of `initialise_initrd`. -/
def makeNode (fuel : Nat) (s : Ramdisk) (location i : U32) : Option Ramdisk :=
  let header := s.fileHeader i
  let m := store s.mem (fieldOffset header) (load s.mem (fieldOffset header) + location)
  (strcpy fuel m (s.rootNode i) (fieldName header)).map fun m =>
    { s with
      mem := m
      nodes := fun p => if p = s.rootNode i then ⟨fsFile, i, load m (fieldLength header), some .initrd_read, none, none⟩
        else s.nodes p }

/-- The loop of `initialise_initrd` from `i` on. -/
def makeNodes (fuel : Nat) (location : U32) : Nat → Ramdisk → U32 → Option Ramdisk
  | 0, _, _ => none
  | n + 1, s, i =>
    if i < load s.mem s.initrd_header then (s.makeNode fuel location i).bind fun s =>
        makeNodes fuel location n s (i + 1)
    else some s

/-- `initialise_initrd`; it returns `initrd_root`. -/
def initialiseInitrd (fuel : Nat) (st : Storage) (s : Ramdisk) (location : U32) : Option Ramdisk :=
  makeNodes fuel location fuel (s.makeRoots st location) 0

/-- A caller that reads a file in chunks of `size`, into `buffer j` the `j`-th time, until `read_fs` returns 0: the
bytes it got. -/
def readAll (size : U32) (buffer : Nat → U32) : Nat → Nat → Ramdisk → U32 → U32 → Option (List Byte × Ramdisk)
  | 0, _, _, _, _ => none
  | n + 1, j, s, node, total =>
    let r := s.readFs node total size (buffer j)
    if r.1 = 0 then some ([], r.2)
    else (readAll size buffer n (j + 1) r.2 node (total + r.1)).map fun t =>
      ((List.range r.1.toNat).map (bytesFrom r.2.mem (buffer j)) ++ t.1, t.2)

end Ramdisk

/-! ## Images -/

structure File where
  name : List Byte
  content : List Byte

/-- The `i`-th file header of an image. -/
def headerAt (location : U32) (i : Nat) : U32 := location + sizeofInitrdHeader + sizeofFileHeader * BitVec.ofNat 32 i

/-- **An image of `files`**, `size` bytes long: the count, the headers, and the contents where the headers say. -/
structure Image (m : Mem) (location : U32) (size : Nat) (files : List File) : Prop where
  fits : location.toNat + size ≤ 2 ^ 32
  headers : 4 + 76 * files.length ≤ size
  count : (load m location).toNat = files.length
  name : ∀ i f, files[i]? = some f → StringAt m (fieldName (headerAt location i)) f.name ∧ f.name.length < 64
  length : ∀ i f, files[i]? = some f → (load m (fieldLength (headerAt location i))).toNat = f.content.length
  inside : ∀ i f, files[i]? = some f → 4 + 76 * files.length ≤ (load m (fieldOffset (headerAt location i))).toNat ∧
    (load m (fieldOffset (headerAt location i))).toNat + f.content.length ≤ size
  content : ∀ i f, files[i]? = some f → ∀ j, j < f.content.length →
    bytesFrom m (location + load m (fieldOffset (headerAt location i))) j = f.content.getD j 0

/-- The nodes' storage is private: apart from the image and from each other, and no call touches the image. -/
structure Private (st : Storage) (location : U32) (size n : Nat) : Prop where
  nonnull : st.root ≠ 0 ∧ st.dev ≠ 0 ∧ st.nodes ≠ 0
  fits : st.root.toNat + 184 ≤ 2 ^ 32 ∧ st.dev.toNat + 184 ≤ 2 ^ 32 ∧ st.nodes.toNat + 184 * n ≤ 2 ^ 32
  apart : Apart st.root.toNat 184 st.dev.toNat 184 ∧ Apart st.root.toNat 184 st.nodes.toNat (184 * n) ∧
    Apart st.dev.toNat 184 st.nodes.toNat (184 * n)
  image : Apart location.toNat size st.root.toNat 184 ∧ Apart location.toNat size st.dev.toNat 184 ∧
    Apart location.toNat size st.nodes.toNat (184 * n)
  touch : ∀ i m (x : U32), location.toNat ≤ x.toNat → x.toNat < location.toNat + size → st.touch i m x = m x

namespace Ramdisk

variable {m : Mem} {st : Storage} {s : Ramdisk} {location : U32} {size i j k : Nat} {files : List File} {f : File}

/-! ## The loop over the files -/

/-- The `i`-th file node. -/
def nodeAt (st : Storage) (i : Nat) : U32 := st.nodes + sizeofFsNode * BitVec.ofNat 32 i

theorem toNat_scaled {base step : U32} {i : Nat} (h : base.toNat + step.toNat * i < 2 ^ 32) (hs : 0 < step.toNat) :
    (base + step * BitVec.ofNat 32 i).toNat = base.toNat + step.toNat * i := by
  have hi : i < 2 ^ 32 := by
    have := Nat.le_mul_of_pos_left i hs
    omega
  rw [BitVec.toNat_add, BitVec.toNat_mul, BitVec.toNat_ofNat, Nat.mod_eq_of_lt hi,
    Nat.mod_eq_of_lt (Nat.lt_of_le_of_lt (Nat.le_add_left _ _) h), Nat.mod_eq_of_lt h]

theorem toNat_nodeAt {n : Nat} (hp : Private st location size n) (hi : i < n) :
    (nodeAt st i).toNat = st.nodes.toNat + 184 * i :=
  toNat_scaled (by have := hp.fits.2.2; show st.nodes.toNat + 184 * i < 2 ^ 32; omega) (by decide)

theorem nodeAt_ne {n : Nat} (hp : Private st location size n) (hi : i < n) (hj : j < n) (h : i ≠ j) :
    nodeAt st i ≠ nodeAt st j := fun he => by
  have h1 := toNat_nodeAt hp hi
  rw [he, toNat_nodeAt hp hj] at h1
  omega

theorem toNat_fields (h : location.toNat + 4 + 76 * (i + 1) ≤ 2 ^ 32) :
    (fieldName (headerAt location i)).toNat = location.toNat + 4 + 76 * i + 1 ∧
      (fieldOffset (headerAt location i)).toNat = location.toNat + 4 + 76 * i + 68 ∧
        (fieldLength (headerAt location i)).toNat = location.toNat + 4 + 76 * i + 72 := by
  have h4 : (location + sizeofInitrdHeader).toNat = location.toNat + 4 := by
    rw [BitVec.toNat_add]
    show (location.toNat + 4) % 2 ^ 32 = _
    omega
  have hh : (headerAt location i).toNat = location.toNat + 4 + 76 * i := by
    unfold headerAt
    rw [toNat_scaled (by rw [h4]; show _ + 76 * i < _; omega) (by decide), h4]
    rfl
  have hadd : ∀ c : U32, c.toNat < 76 → (headerAt location i + c).toNat = location.toNat + 4 + 76 * i + c.toNat :=
    fun c hc => by rw [BitVec.toNat_add, hh]; omega
  exact ⟨hadd 1 (by decide), hadd 68 (by decide), hadd 72 (by decide)⟩

/-- After `k` rounds of the loop. -/
structure Loading (m : Mem) (st : Storage) (location : U32) (size : Nat) (files : List File) (s : Ramdisk) (k : Nat) :
    Prop where
  header : s.initrd_header = location
  headers : s.file_headers = location + sizeofInitrdHeader
  root : s.initrd_root = st.root
  rootNodes : s.root_nodes = st.nodes
  count : s.nroot_nodes.toNat = files.length
  bytes : ∀ x : U32, location.toNat ≤ x.toNat → x.toNat < location.toNat + size →
    (∀ j, j < k → x.toNat < location.toNat + 4 + 76 * j + 68 ∨ location.toNat + 4 + 76 * j + 72 ≤ x.toNat) →
      s.mem x = m x
  offset : ∀ j, j < k → load s.mem (fieldOffset (headerAt location j)) =
    load m (fieldOffset (headerAt location j)) + location
  name : ∀ j f, j < k → files[j]? = some f → StringAt s.mem (nodeAt st j) f.name
  node : ∀ j f, j < k → files[j]? = some f → s.nodes (nodeAt st j) =
    ⟨fsFile, BitVec.ofNat 32 j, load m (fieldLength (headerAt location j)), some .initrd_read, none, none⟩
  rootNode : s.nodes st.root = directory

theorem Loading.load_eq (h : Loading m st location size files s k) {a : U32} (hlo : location.toNat ≤ a.toNat)
    (hhi : a.toNat + 4 ≤ location.toNat + size) (hfit : location.toNat + size ≤ 2 ^ 32)
    (hoff : ∀ j, j < k → a.toNat + 4 ≤ location.toNat + 4 + 76 * j + 68 ∨ location.toNat + 4 + 76 * j + 72 ≤ a.toNat) :
    load s.mem a = load m a :=
  load_congr fun x hx => by
    rw [BitVec.toNat_sub] at hx
    have := x.isLt
    exact h.bytes x (by omega) (by omega) fun j hj => by have := hoff j hj; omega

theorem fileHeader_eq (h : s.file_headers = location + sizeofInitrdHeader) (i : Nat) :
    s.fileHeader (BitVec.ofNat 32 i) = headerAt location i := by
  unfold fileHeader headerAt
  rw [h]

theorem rootNode_eq (h : s.root_nodes = st.nodes) (i : Nat) : s.rootNode (BitVec.ofNat 32 i) = nodeAt st i := by
  unfold rootNode nodeAt
  rw [h]

/-- The memory once the offset of the file `k` is relocated. -/
def offsetStored (m : Mem) (location : U32) (s : Ramdisk) (k : Nat) : Mem :=
  store s.mem (fieldOffset (headerAt location k)) (load m (fieldOffset (headerAt location k)) + location)

/-- The name is copied into the node, from a memory where the offset is relocated. -/
theorem Loading.copyName (h : Loading m st location size files s k) (him : Image m location size files)
    (hp : Private st location size files.length) (hf : files[k]? = some f) :
    ∃ m', (∀ fuel, 64 < fuel → strcpyLoop fuel (offsetStored m location s k) (nodeAt st k)
        (fieldName (headerAt location k)) = some m') ∧ StringAt m' (nodeAt st k) f.name ∧
      Keeps (fieldOffset (headerAt location k)).toNat ((fieldOffset (headerAt location k)).toNat + 4) s.mem
        (offsetStored m location s k) ∧
      Keeps (nodeAt st k).toNat ((nodeAt st k).toNat + 64) (offsetStored m location s k) m' := by
  have hk := (List.getElem?_eq_some_iff.1 hf).1
  have hfit := him.fits
  have hhead := him.headers
  obtain ⟨hname, hlen⟩ := him.name k f hf
  obtain ⟨h1, h2, -⟩ := @toNat_fields location k (by omega)
  have hnode := toNat_nodeAt hp hk
  have hnodes := hp.fits.2.2
  have himage := hp.image.2.2
  unfold Apart at himage
  have hk1 := keeps_store s.mem (fieldOffset (headerAt location k))
    (load m (fieldOffset (headerAt location k)) + location) (by omega)
  have hbefore : StringAt s.mem (fieldName (headerAt location k)) f.name :=
    hname.congr (by omega) fun x hlo hhi => h.bytes x (by omega) (by omega) fun j hj => by omega
  obtain ⟨m', hm', hstr, hk2⟩ := @strcpyLoop_spec _ _ (nodeAt st k) _ (hbefore.keeps hk1 (by omega) (by omega))
    (by omega) (by omega) (by omega)
  exact ⟨m', fun fuel hfuel => hm' fuel (by omega), hstr, hk1, hk2.mono (Nat.le_refl _) (by omega)⟩

/-- **One round**: the offset is relocated, the name copied, and the node set. -/
theorem Loading.makeNode (h : Loading m st location size files s k) (him : Image m location size files)
    (hp : Private st location size files.length) (hf : files[k]? = some f) :
    ∃ s', (∀ fuel, 64 < fuel → makeNode fuel s location (BitVec.ofNat 32 k) = some s') ∧
      Loading m st location size files s' (k + 1) ∧ s'.initrd_dev = s.initrd_dev ∧
      ∀ p, p ≠ nodeAt st k → s'.nodes p = s.nodes p := by
  have hk := (List.getElem?_eq_some_iff.1 hf).1
  have hfit := him.fits
  have hhead := him.headers
  obtain ⟨h1, h2, h3⟩ := @toNat_fields location k (by omega)
  have hnode := toNat_nodeAt hp hk
  have hnodes := hp.fits.2.2
  have himage := hp.image.2.2
  unfold Apart at himage
  have hoff := h.load_eq (a := fieldOffset (headerAt location k)) (by omega) (by omega) hfit fun j hj => by omega
  obtain ⟨m₂, hm₂, hstr₂, hk1, hk2⟩ := h.copyName him hp hf
  have hkeep : ∀ x : U32, location.toNat ≤ x.toNat → x.toNat < location.toNat + size →
      (x.toNat < location.toNat + 4 + 76 * k + 68 ∨ location.toNat + 4 + 76 * k + 72 ≤ x.toNat) → m₂ x = s.mem x :=
    fun x hlo hhi hx => (hk2 x (by omega)).trans (hk1 x (by omega))
  have hlength : load m₂ (fieldLength (headerAt location k)) = load m (fieldLength (headerAt location k)) :=
    (load_congr fun x hx => by
      rw [BitVec.toNat_sub] at hx
      have := x.isLt
      exact hkeep x (by omega) (by omega) (by omega)).trans
        (h.load_eq (by omega) (by omega) hfit fun j hj => by omega)
  have hne : st.nodes ≠ 0 := hp.nonnull.2.2
  have hne' : nodeAt st k ≠ 0 := fun h0 => by
    rw [h0] at hnode
    exact hne (BitVec.eq_of_toNat_eq (by
      have hz : (0 : U32).toNat = 0 := rfl
      omega))
  have hrun : ∀ fuel, 64 < fuel → Ramdisk.makeNode fuel s location (BitVec.ofNat 32 k) = some { s with
      mem := m₂
      nodes := fun p => if p = nodeAt st k then
          ⟨fsFile, BitVec.ofNat 32 k, load m₂ (fieldLength (headerAt location k)), some .initrd_read, none, none⟩
        else s.nodes p } := fun fuel hfuel => by
    have hcopy := hm₂ fuel hfuel
    unfold offsetStored at hcopy
    simp only [Ramdisk.makeNode, strcpy, fileHeader_eq h.headers, rootNode_eq h.rootNodes, hoff, if_neg hne', hcopy,
      Option.map_some]
  exact ⟨_, hrun, {
    header := h.header
    headers := h.headers
    root := h.root
    rootNodes := h.rootNodes
    count := h.count
    bytes := fun x hlo hhi hx => (hkeep x hlo hhi (hx k (Nat.lt_succ_self k))).trans
      (h.bytes x hlo hhi fun j hj => hx j (Nat.lt_succ_of_lt hj))
    offset := fun j hj => by
      obtain ⟨-, h2', -⟩ := @toNat_fields location j (by omega)
      show load m₂ _ = _
      rw [hk2.load_eq (by omega) (by omega)]
      by_cases hjk : j = k
      · subst hjk
        exact load_store_same ..
      · rw [hk1.load_eq (by omega) (by omega), h.offset j (by omega)]
    name := fun j f' hj hf' => by
      show StringAt m₂ _ _
      by_cases hjk : j = k
      · subst hjk
        rw [← Option.some.inj (hf.symm.trans hf')]
        exact hstr₂
      · have hj' := (List.getElem?_eq_some_iff.1 hf').1
        have hnj := toNat_nodeAt hp hj'
        have hl := (him.name j f' hf').2
        exact ((h.name j f' (by omega) hf').keeps hk1 (by omega) (by omega)).keeps hk2 (by omega) (by omega)
    node := fun j f' hj hf' => by
      show (if nodeAt st j = nodeAt st k then _ else s.nodes (nodeAt st j)) = _
      by_cases hjk : j = k
      · subst hjk
        rw [if_pos rfl, hlength]
      · rw [if_neg (nodeAt_ne hp (List.getElem?_eq_some_iff.1 hf').1 hk hjk), h.node j f' (by omega) hf']
    rootNode := by
      show (if st.root = nodeAt st k then _ else s.nodes st.root) = _
      have hapart := hp.apart.2.1
      unfold Apart at hapart
      rw [if_neg fun he => by rw [← he] at hnode; omega, h.rootNode] }, rfl, fun p hne => if_neg hne⟩

theorem Loading.makeNodes (him : Image m location size files) (hp : Private st location size files.length) : ∀ (d : Nat)
    {s : Ramdisk} {k : Nat}, k + d = files.length → Loading m st location size files s k →
      ∃ s', (∀ fuel n, 64 < fuel → d < n → makeNodes fuel location n s (BitVec.ofNat 32 k) = some s') ∧
        Loading m st location size files s' files.length ∧ s'.initrd_dev = s.initrd_dev ∧
        ∀ p, (∀ j, j < files.length → p ≠ nodeAt st j) → s'.nodes p = s.nodes p
  | d, s, k, hkd, h => by
    have hfit := him.fits
    have hhead := him.headers
    have hcount : load s.mem s.initrd_header = load m location := by
      rw [h.header]
      exact h.load_eq (by omega) (by omega) hfit fun j hj => by omega
    have hki : (BitVec.ofNat 32 k).toNat = k := by
      rw [BitVec.toNat_ofNat]
      omega
    have hlt : BitVec.ofNat 32 k < load s.mem s.initrd_header ↔ k < files.length := by
      rw [hcount, BitVec.lt_def, him.count, hki]
    cases d with
    | zero =>
      refine ⟨s, fun fuel n _ hn => ?_, (show k = files.length from hkd) ▸ h, rfl, fun _ _ => rfl⟩
      obtain ⟨n, rfl⟩ : ∃ e, n = e + 1 := ⟨n - 1, by omega⟩
      unfold Ramdisk.makeNodes
      rw [if_neg (by rw [hlt]; omega)]
    | succ d =>
      have hk : k < files.length := by omega
      obtain ⟨s₁, hs₁, h₁, hdev₁, hn₁⟩ := h.makeNode him hp (List.getElem?_eq_getElem hk)
      obtain ⟨s', hs', h', hdev', hn'⟩ := h₁.makeNodes him hp d (by omega)
      refine ⟨s', fun fuel n hfuel hn => ?_, h', hdev'.trans hdev₁, fun p hne => (hn' p hne).trans (hn₁ p (hne k hk))⟩
      obtain ⟨n, rfl⟩ : ∃ e, n = e + 1 := ⟨n - 1, by omega⟩
      unfold Ramdisk.makeNodes
      rw [if_pos (hlt.2 hk), hs₁ fuel hfuel, Option.bind_some]
      have hnext := hs' fuel n hfuel (by omega)
      rw [BitVec.ofNat_add] at hnext
      exact hnext

theorem makeRoots_mem {n : Nat} (hp : Private st location size n) {x : U32}
    (hlo : location.toNat ≤ x.toNat) (hhi : x.toNat < location.toNat + size) :
    (s.makeRoots st location).mem x = s.mem x := by
  obtain ⟨hr, hd, -⟩ := hp.image
  obtain ⟨hrf, hdf, -⟩ := hp.fits
  unfold Apart at hr hd
  have hn1 : nameInitrd.length = 6 := rfl
  have hn2 : nameDev.length = 3 := rfl
  refine (hp.touch 2 _ x hlo hhi).trans ?_
  rw [keeps_strcpyLiteral (l := nameDev) (by omega) x (by omega), hp.touch 1 _ x hlo hhi,
    keeps_strcpyLiteral (l := nameInitrd) (by omega) x (by omega), hp.touch 0 _ x hlo hhi]

theorem loading_makeRoots (him : Image m location size files) (hp : Private st location size files.length) {s : Ramdisk}
    (hs : s.mem = m) : Loading m st location size files (s.makeRoots st location) 0 := by
  have hfit := him.fits
  have hhead := him.headers
  have hbytes : ∀ x : U32, location.toNat ≤ x.toNat → x.toNat < location.toNat + size →
      (s.makeRoots st location).mem x = m x := fun x hlo hhi => by
    rw [makeRoots_mem hp hlo hhi, hs]
  have hcount : load (s.makeRoots st location).mem location = load m location := load_congr fun x hx => by
    rw [BitVec.toNat_sub] at hx
    have := x.isLt
    exact hbytes x (by omega) (by omega)
  refine ⟨rfl, rfl, rfl, rfl, ?_, fun x hlo hhi _ => hbytes x hlo hhi, fun j hj => absurd hj (Nat.not_lt_zero j),
    fun j f hj => absurd hj (Nat.not_lt_zero j), fun j f hj => absurd hj (Nat.not_lt_zero j), ?_⟩
  · exact (congrArg BitVec.toNat hcount).trans him.count
  · show (if st.root = st.dev then directory else if st.root = st.root then directory else s.nodes st.root) = directory
    rw [if_pos rfl, ite_self]

end Ramdisk

end Loris
