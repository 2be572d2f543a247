import Loris.InitrdBounds
/-!
# InitrdDirectory — `readdir_fs` against `finddir_fs`

The root and `/dev` have the same two functions.  `initrd_readdir` goes by index, and makes room for `dev` at index 0 of
the root; `initrd_finddir` goes by name.  On the root the two describe one directory; on `/dev` they do only if there is
no file (`listing_agrees_lookup`).
-/
namespace Loris

open ByteMem

theorem stringAt_strcpyLiteral : ∀ {l : List Byte} {m : Mem} {dst : U32}, 0 ∉ l → dst.toNat + l.length < 2 ^ 32 →
    StringAt (strcpyLiteral m dst l) dst l
  | [], m, dst, _, _ => by
    rw [stringAt_nil]
    exact storeByte_same m dst 0
  | b :: l, m, dst, h, hd => by
    rw [List.mem_cons, not_or] at h
    rw [List.length_cons] at hd
    have hd1 := toNat_succ (p := dst) (by omega)
    refine stringAt_cons.2 ⟨fun h0 => h.1 h0.symm, ?_, stringAt_strcpyLiteral h.2 (by omega)⟩
    exact (keeps_strcpyLiteral (l := l) (by omega) dst (by omega)).trans (storeByte_same m dst b)

theorem IsString.unique : ∀ {l l' : List Byte} {X : Nat → Byte}, IsString X l → IsString X l' → l = l'
  | [], [], _, _, _ => rfl
  | [], _ :: _, _, h, ⟨hb, h0, _⟩ => absurd (h0.symm.trans h) hb
  | _ :: _, [], _, ⟨hb, h0, _⟩, h => absurd (h0.symm.trans h) hb
  | _ :: l, _ :: l', _, ⟨_, h0, h⟩, ⟨_, h0', h'⟩ => by
    rw [h0.symm.trans h0', IsString.unique h h']

namespace Ramdisk

/-- `initrd_readdir`; `direntry` is the address of the global entry. -/
def initrdReaddir (fuel : Nat) (direntry : U32) (s : Ramdisk) (node index : U32) : Option (U32 × Ramdisk) :=
  if node = s.initrd_root ∧ index = 0 then
    let m := strcpyLiteral s.mem direntry nameDev
    let m := storeByte m (direntry + 3) 0
    some (direntry, { s with mem := store m (direntry + 128) 0 })
  else if index - 1 ≥ s.nroot_nodes then some (0, s)
  else
    (strcpy fuel s.mem direntry (s.rootNode (index - 1))).bind fun m =>
      (strlen fuel (bytesFrom m (s.rootNode (index - 1)))).map fun len =>
        let m := storeByte m (direntry + BitVec.ofNat 32 len) 0
        (direntry, { s with mem := store m (direntry + 128) (s.nodes (s.rootNode (index - 1))).inode })

/-- `readdir_fs`. -/
def readdirFs (fuel : Nat) (direntry : U32) (s : Ramdisk) (node index : U32) : Option (U32 × Ramdisk) :=
  if (s.nodes node).flags &&& 0x7 ≠ fsDirectory ∨ (s.nodes node).readdir.isNone then some (0, s)
  else
    match (s.nodes node).readdir with
    | some .initrd_readdir => s.initrdReaddir fuel direntry node index
    | none => some (0, s)

/-- `readdir_fs(node, index)` returns `p`, in the state `r`. -/
def Readdir (direntry : U32) (s : Ramdisk) (node index p : U32) (r : Ramdisk) : Prop :=
  ∃ steps, ∀ fuel, steps ≤ fuel → readdirFs fuel direntry s node index = some (p, r)

/-- `finddir_fs(node, name)` returns `f`. -/
def Finddir (s : Ramdisk) (node name f : U32) : Prop :=
  ∃ steps, ∀ fuel, steps ≤ fuel → finddirFs fuel s node name = some f

/-- `readdir_fs(node, index)` returns an entry, of the name `l` and the inode `ino`. -/
def Lists (direntry : U32) (s : Ramdisk) (node index : U32) (l : List Byte) (ino : U32) : Prop :=
  ∃ p r, Readdir direntry s node index p r ∧ p ≠ 0 ∧ StringAt r.mem p l ∧ load r.mem (p + 128) = ino

/-- **The listing and the lookup of a directory agree.** -/
structure Agrees (direntry : U32) (s : Ramdisk) (node : U32) : Prop where
  count : ∃ k : Nat, ∀ index : U32, ∃ p r, Readdir direntry s node index p r ∧ (p ≠ 0 ↔ index.toNat < k) ∧
    (p ≠ 0 → ∃ l ino, Lists direntry s node index l ino)
  once : ∀ i j l a b, Lists direntry s node i l a → Lists direntry s node j l b → i = j
  found : ∀ name l, StringAt s.mem name l → ∃ f, Finddir s node name f ∧
    ((∃ index ino, Lists direntry s node index l ino) ↔ f ≠ 0) ∧
    ∀ index ino, Lists direntry s node index l ino → (s.nodes f).inode = ino

/-- The states after calls of `readdir_fs`. -/
inductive Listed (direntry : U32) (s : Ramdisk) : Ramdisk → Prop
  | none : Listed direntry s s
  | readdir {r t : Ramdisk} {node index p : U32} : Listed direntry s r → Readdir direntry r node index p t →
    Listed direntry s t

/-- The global entry lies apart from the image and from the nodes. -/
structure Entry (st : Storage) (location : U32) (size n : Nat) (direntry : U32) : Prop where
  nonnull : direntry ≠ 0
  fits : direntry.toNat + 132 ≤ 2 ^ 32
  image : Apart location.toNat size direntry.toNat 132
  nodes : Apart st.nodes.toNat (184 * n) direntry.toNat 132

/-- The ramdisk as `initialise_initrd` leaves it. -/
structure Mounted (m : Mem) (st : Storage) (location : U32) (size : Nat) (files : List File) (s : Ramdisk) : Prop where
  loading : Loading m st location size files s files.length
  dev : s.initrd_dev = st.dev
  devNode : s.nodes st.dev = directory

variable {m : Mem} {st : Storage} {s r : Ramdisk} {location direntry node index name p ino : U32} {size : Nat}
  {files : List File} {l : List Byte}

theorem Mounted.keeps (h : Mounted m st location size files s) (him : Image m location size files)
    (hp : Private st location size files.length) (he : Entry st location size files.length direntry) {m' : Mem}
    (hm : Keeps direntry.toNat (direntry.toNat + 132) s.mem m') :
    Mounted m st location size files { s with mem := m' } := by
  have hfit := him.fits
  have hhead := him.headers
  have himage := he.image
  have hnodes := he.nodes
  have hroom := hp.fits.2.2
  unfold Apart at himage hnodes
  obtain ⟨hl, hd, hdn⟩ := h
  refine ⟨⟨hl.header, hl.headers, hl.root, hl.rootNodes, hl.count, fun x hlo hhi hx => ?_, fun j hj => ?_,
    fun j f hj hf => ?_, hl.node, hl.rootNode⟩, hd, hdn⟩
  · exact (hm x (by omega)).trans (hl.bytes x hlo hhi hx)
  · obtain ⟨-, h2, -⟩ := @toNat_fields location j (by omega)
    exact (hm.load_eq (by omega) (by omega)).trans (hl.offset j hj)
  · have hnode := toNat_nodeAt hp hj
    have hlen := (him.name j f hf).2
    exact (hl.name j f hj hf).keeps hm (by omega) (by omega)

/-! ## Listing -/

/-- The entry of a directory at an index. -/
def EntryOf (st : Storage) (files : List File) (node index : U32) (l : List Byte) (ino : U32) : Prop :=
  (node = st.root ∧ index = 0 ∧ l = nameDev ∧ ino = 0) ∨
    (¬ (node = st.root ∧ index = 0) ∧ ∃ f, files[(index - 1).toNat]? = some f ∧ l = f.name ∧ ino = index - 1)

theorem Mounted.rootNode (h : Mounted m st location size files s) (i : U32) : s.rootNode i = nodeAt st i.toNat := by
  unfold Ramdisk.rootNode nodeAt
  rw [h.loading.rootNodes, BitVec.ofNat_toNat, BitVec.setWidth_eq]

theorem entry_written {m₀ m₁ : Mem} {v : U32} (he : direntry.toNat + 132 ≤ 2 ^ 32) (hl : l.length < 64)
    (hk : Keeps direntry.toNat (direntry.toNat + l.length + 1) m₀ m₁) (hs : StringAt m₁ direntry l) :
    StringAt (store (storeByte m₁ (direntry + BitVec.ofNat 32 l.length) 0) (direntry + 128) v) direntry l ∧
      load (store (storeByte m₁ (direntry + BitVec.ofNat 32 l.length) 0) (direntry + 128) v) (direntry + 128) = v ∧
      Keeps direntry.toNat (direntry.toNat + 132) m₀
        (store (storeByte m₁ (direntry + BitVec.ofNat 32 l.length) 0) (direntry + 128) v) := by
  have hend : (direntry + BitVec.ofNat 32 l.length).toNat = direntry.toNat + l.length := toNat_add_ofNat (by omega)
  have hino : (direntry + 128).toNat = direntry.toNat + 128 := by
    rw [BitVec.toNat_add, show (128 : U32).toNat = 128 from rfl]
    omega
  have hk1 := keeps_storeByte m₁ (direntry + BitVec.ofNat 32 l.length) 0
  have hk2 := keeps_store (storeByte m₁ (direntry + BitVec.ofNat 32 l.length) 0) (direntry + 128) v (by omega)
  -- the NUL goes where there is one
  have hsame : storeByte m₁ (direntry + BitVec.ofNat 32 l.length) 0 = m₁ := by
    funext x
    by_cases hx : x = direntry + BitVec.ofNat 32 l.length
    · rw [hx, storeByte_same]
      exact (isString_length hs).symm
    · exact storeByte_apply_of_ne _ _ hx
  refine ⟨StringAt.keeps (by rw [hsame]; exact hs) hk2 (by omega) (by omega), load_store_same .., ?_⟩
  exact ((hk.mono (Nat.le_refl _) (by omega)).trans (hk1.mono (by omega) (by omega))).trans
    (hk2.mono (by omega) (by omega))

/-- **`initrd_readdir`**, on any node. -/
theorem Mounted.initrdReaddir (h : Mounted m st location size files s) (him : Image m location size files)
    (hp : Private st location size files.length) (he : Entry st location size files.length direntry)
    (node index : U32) :
    ∃ p r, (∀ fuel, 64 ≤ fuel → initrdReaddir fuel direntry s node index = some (p, r)) ∧
      Mounted m st location size files r ∧ Keeps direntry.toNat (direntry.toNat + 132) s.mem r.mem ∧
      ((p = 0 ∧ ¬ (node = st.root ∧ index = 0) ∧ files.length ≤ (index - 1).toNat) ∨
        ∃ l ino, p ≠ 0 ∧ StringAt r.mem p l ∧ load r.mem (p + 128) = ino ∧ EntryOf st files node index l ino) := by
  have hroot := h.loading.root
  have hcount := h.loading.count
  by_cases hdev : node = st.root ∧ index = 0
  · have h3 : nameDev.length = 3 := rfl
    have hfits := he.fits
    obtain ⟨hs, hi, hk⟩ := @entry_written direntry nameDev s.mem _ 0 he.fits (by decide)
      (keeps_strcpyLiteral (l := nameDev) (by omega)) (stringAt_strcpyLiteral (l := nameDev) (by decide) (by omega))
    refine ⟨direntry, _, fun fuel _ => ?_, h.keeps him hp he hk, hk, Or.inr ⟨nameDev, 0, he.nonnull, hs, hi,
      Or.inl ⟨hdev.1, hdev.2, rfl, rfl⟩⟩⟩
    unfold Ramdisk.initrdReaddir
    rw [if_pos (by rw [hroot]; exact hdev)]
    rfl
  · by_cases hend : index - 1 ≥ s.nroot_nodes
    · refine ⟨0, s, fun fuel _ => ?_, h, Keeps.refl _ _ _, Or.inl ⟨rfl, hdev, by rw [← hcount]; exact hend⟩⟩
      unfold Ramdisk.initrdReaddir
      rw [if_neg (by rw [hroot]; exact hdev), if_pos hend]
    · have hlt : (index - 1).toNat < files.length := by
        rw [← hcount]
        exact Nat.lt_of_not_le hend
      obtain ⟨f, hf⟩ : ∃ f, files[(index - 1).toNat]? = some f := ⟨_, List.getElem?_eq_getElem hlt⟩
      have hname := h.loading.name _ f hlt hf
      have hlen := (him.name _ f hf).2
      have hnode := toNat_nodeAt hp hlt
      have hroom := hp.fits.2.2
      have hfits := he.fits
      have hnodes := he.nodes
      unfold Apart at hnodes
      obtain ⟨m₁, hm₁, hstr, hk⟩ := @strcpyLoop_spec f.name s.mem direntry _ hname (by omega) (by omega) (by omega)
      have hstrlen := (hname.keeps hk (by omega) (by omega))
      obtain ⟨hs, hi, hk'⟩ := @entry_written direntry f.name s.mem m₁
        (s.nodes (nodeAt st (index - 1).toNat)).inode he.fits
        hlen hk hstr
      refine ⟨direntry, _, fun fuel hfuel => ?_, h.keeps him hp he hk', hk', Or.inr ⟨f.name, _, he.nonnull, hs, hi,
        Or.inr ⟨hdev, f, hf, rfl, ?_⟩⟩⟩
      · unfold Ramdisk.initrdReaddir strcpy
        rw [if_neg (by rw [hroot]; exact hdev), if_neg hend, if_neg he.nonnull, h.rootNode, hm₁ fuel (by omega),
          Option.bind_some, strlen_spec hstrlen (by omega), Option.map_some]
      · rw [h.loading.node _ f hlt hf]
        exact BitVec.eq_of_toNat_eq (by rw [BitVec.toNat_ofNat]; omega)

theorem Mounted.readdir (h : Mounted m st location size files s) (him : Image m location size files)
    (hp : Private st location size files.length) (he : Entry st location size files.length direntry)
    (hnode : node = st.root ∨ node = st.dev) (index : U32) : ∃ p r, Readdir direntry s node index p r ∧
      ((p = 0 ∧ ¬ (node = st.root ∧ index = 0) ∧ files.length ≤ (index - 1).toNat) ∨
        ∃ l ino, p ≠ 0 ∧ StringAt r.mem p l ∧ load r.mem (p + 128) = ino ∧ EntryOf st files node index l ino) := by
  obtain ⟨p, r, hr, -, -, hcase⟩ := h.initrdReaddir him hp he node index
  have hdir : s.nodes node = directory := by
    rcases hnode with rfl | rfl
    · exact h.loading.rootNode
    · exact h.devNode
  refine ⟨p, r, ⟨64, fun fuel hf => ?_⟩, hcase⟩
  unfold Ramdisk.readdirFs
  rw [hdir, if_neg (by decide)]
  exact hr fuel hf

/-- **`readdir_fs` writes the global entry** alone, and the ramdisk stays mounted. -/
theorem Mounted.after (h : Mounted m st location size files s) (him : Image m location size files)
    (hp : Private st location size files.length) (he : Entry st location size files.length direntry)
    (hr : Readdir direntry s node index p r) :
    Mounted m st location size files r ∧ Keeps direntry.toNat (direntry.toNat + 132) s.mem r.mem := by
  obtain ⟨steps, hr⟩ := hr
  obtain ⟨p', r', hr', hm, hk, -⟩ := h.initrdReaddir him hp he node index
  have hrun := hr (steps + 64) (by omega)
  unfold Ramdisk.readdirFs at hrun
  split at hrun
  · rw [Option.some.injEq, Prod.mk.injEq] at hrun
    rw [← hrun.2]
    exact ⟨h, Keeps.refl _ _ _⟩
  · split at hrun
    · rw [hr' _ (by omega), Option.some.injEq, Prod.mk.injEq] at hrun
      rw [← hrun.2]
      exact ⟨hm, hk⟩
    · rw [Option.some.injEq, Prod.mk.injEq] at hrun
      rw [← hrun.2]
      exact ⟨h, Keeps.refl _ _ _⟩

theorem Readdir.unique {p' : U32} {r' : Ramdisk} (h : Readdir direntry s node index p r)
    (h' : Readdir direntry s node index p' r') : p = p' ∧ r = r' := by
  obtain ⟨n, h⟩ := h
  obtain ⟨n', h'⟩ := h'
  have hrun := h (n + n') (by omega)
  rw [h' (n + n') (by omega), Option.some.injEq, Prod.mk.injEq] at hrun
  exact ⟨hrun.1.symm, hrun.2.symm⟩

/-- **What is listed** is an entry of the directory. -/
theorem Mounted.lists_iff (h : Mounted m st location size files s) (him : Image m location size files)
    (hp : Private st location size files.length) (he : Entry st location size files.length direntry)
    (hnode : node = st.root ∨ node = st.dev) :
    Lists direntry s node index l ino ↔ EntryOf st files node index l ino := by
  obtain ⟨p, r, hr, hcase⟩ := h.readdir him hp he hnode index
  constructor
  · rintro ⟨p', r', hr', hp', hl, hi⟩
    obtain ⟨rfl, rfl⟩ := hr.unique hr'
    rcases hcase with ⟨h0, -⟩ | ⟨l', ino', -, hl', hi', hentry⟩
    · exact absurd h0 hp'
    · rw [IsString.unique hl hl', ← hi, hi']
      exact hentry
  · intro hentry
    rcases hcase with ⟨-, hno, hlen⟩ | ⟨l', ino', h0, hl', hi', hentry'⟩
    · rcases hentry with ⟨hroot, hz, -⟩ | ⟨-, f, hf, -⟩
      · exact absurd ⟨hroot, hz⟩ hno
      · exact absurd (List.getElem?_eq_some_iff.1 hf).1 (Nat.not_lt.2 hlen)
    · refine ⟨p, r, hr, h0, ?_⟩
      rcases hentry with ⟨hroot, hz, rfl, rfl⟩ | ⟨hno, f, hf, rfl, rfl⟩
      · rcases hentry' with ⟨-, -, rfl, rfl⟩ | ⟨hno, -⟩
        · exact ⟨hl', hi'⟩
        · exact absurd ⟨hroot, hz⟩ hno
      · rcases hentry' with ⟨hroot, hz, -⟩ | ⟨-, g, hg, rfl, rfl⟩
        · exact absurd ⟨hroot, hz⟩ hno
        · rw [hf, Option.some.injEq] at hg
          rw [hg]
          exact ⟨hl', hi'⟩

/-! ## Lookup -/

/-- **`finddir_fs`** on the root or on `/dev`. -/
theorem Mounted.finddir (h : Mounted m st location size files s) (hp : Private st location size files.length)
    (hnode : node = st.root ∨ node = st.dev) (hl : StringAt s.mem name l) : ∃ f, Finddir s node name f ∧
      ((node = st.root ∧ l = nameDev ∧ f = st.dev) ∨ ¬ (node = st.root ∧ l = nameDev) ∧
        ((f = 0 ∧ ∀ (j : Nat) (g : File), files[j]? = some g → g.name ≠ l) ∨
          ∃ (j : Nat) (g : File), files[j]? = some g ∧ g.name = l ∧ f = nodeAt st j ∧
            ∀ i g', i < j → files[i]? = some g' → g'.name ≠ l)) := by
  have hdir : s.nodes node = directory := by
    rcases hnode with rfl | rfl
    · exact h.loading.rootNode
    · exact h.devNode
  have hunfold : ∀ fuel, finddirFs fuel s node name = s.initrdFinddir fuel node name := fun fuel => by
    unfold Ramdisk.finddirFs
    rw [hdir, if_neg (by decide)]
    rfl
  obtain ⟨f, hf, hcase⟩ := h.loading.finddirLoop hp hl files.length (k := 0) (by omega)
  simp only [Nat.zero_le, true_implies] at hcase
  by_cases hroot : node = st.root
  · -- the root looks at "dev" first
    have hcmp : ∀ fuel, l.length + files.length < fuel →
        finddirFs fuel s node name = if l = nameDev then some st.dev else some f := fun fuel hfuel => by
      obtain ⟨r, hr, ho, -⟩ := @strcmp_spec fuel l nameDev _ _ hl (isString_literal (by decide)) (by omega)
      rw [hunfold]
      unfold Ramdisk.initrdFinddir
      rw [if_pos (by rw [h.loading.root]; exact hroot), hr, Option.bind_some, h.dev]
      by_cases hz : r = 0
      · rw [if_pos hz, if_pos (ho.zero.1 hz)]
      · rw [if_neg hz, if_neg fun he => hz (ho.zero.2 he)]
        exact hf fuel fuel (by omega) (by omega)
    by_cases hdev : l = nameDev
    · exact ⟨st.dev, ⟨l.length + files.length + 1, fun fuel hfuel => by rw [hcmp fuel (by omega), if_pos hdev]⟩,
        Or.inl ⟨hroot, hdev, rfl⟩⟩
    · exact ⟨f, ⟨l.length + files.length + 1, fun fuel hfuel => by rw [hcmp fuel (by omega), if_neg hdev]⟩,
        Or.inr ⟨fun hh => hdev hh.2, hcase⟩⟩
  · refine ⟨f, ⟨l.length + files.length + 1, fun fuel hfuel => ?_⟩, Or.inr ⟨fun hh => hroot hh.1, hcase⟩⟩
    rw [hunfold]
    unfold Ramdisk.initrdFinddir
    rw [if_neg (by rw [h.loading.root]; exact hroot)]
    exact hf fuel fuel (by omega) (by omega)

/-! ## The two -/

theorem toNat_pred {index : U32} (h : index ≠ 0) : (index - 1).toNat = index.toNat - 1 := by
  have h0 : index.toNat ≠ 0 := fun h0 => h (BitVec.eq_of_toNat_eq h0)
  have := index.isLt
  rw [BitVec.toNat_sub, show (1 : U32).toNat = 1 from rfl]
  omega

theorem EntryOf.unique (hdistinct : files.Pairwise fun f g => f.name ≠ g.name) (hdev : ∀ f ∈ files, f.name ≠ nameDev)
    {i j a b : U32} (hi : EntryOf st files node i l a) (hj : EntryOf st files node j l b) : i = j := by
  rcases hi with ⟨-, rfl, rfl, -⟩ | ⟨hi0, f, hf, rfl, -⟩
  · rcases hj with ⟨-, rfl, -⟩ | ⟨-, g, hg, hl, -⟩
    · rfl
    · exact absurd hl.symm (hdev g (List.mem_of_getElem? hg))
  · rcases hj with ⟨-, -, hl, -⟩ | ⟨hj0, g, hg, hl, -⟩
    · exact absurd hl (hdev f (List.mem_of_getElem? hf))
    · have := BitVec.eq_of_toNat_eq (index_unique hdistinct hf hg hl)
      exact BitVec.sub_left_inj 1 |>.1 this

section Directory

variable (h : Mounted m st location size files s) (him : Image m location size files)
  (hp : Private st location size files.length) (he : Entry st location size files.length direntry)
  (hnode : node = st.root ∨ node = st.dev)

include h him hp he hnode

/-- On `/dev` index 0 ends the listing, and index 1 is the first file. -/
theorem Mounted.no_file (ha : Agrees direntry s node) (hroot : node ≠ st.root) : files = [] := by
  have hroom := hp.fits.2.2
  refine List.eq_nil_of_length_eq_zero (Decidable.by_contra fun hlen => ?_)
  obtain ⟨k, hk⟩ := ha.count
  obtain ⟨p, r, hr, hpk, hlist⟩ := hk 0
  obtain ⟨p', r', hr', hpk', -⟩ := hk 1
  obtain ⟨f, hf⟩ : ∃ f, files[((1 : U32) - 1).toNat]? = some f :=
    ⟨_, List.getElem?_eq_getElem (show 0 < files.length by omega)⟩
  obtain ⟨p'', r'', hr'', h0, -⟩ := (h.lists_iff him hp he hnode).2 (Or.inr ⟨fun hh => hroot hh.1, f, hf, rfl, rfl⟩)
  obtain ⟨rfl, -⟩ := hr''.unique hr'
  have h1k := hpk'.1 h0
  obtain ⟨l, ino, hl⟩ := hlist (hpk.2 (by
    rw [show (1 : U32).toNat = 1 from rfl] at h1k
    rw [show (0 : U32).toNat = 0 from rfl]
    omega))
  rcases (h.lists_iff him hp he hnode).1 hl with ⟨hh, -⟩ | ⟨-, f', hf', -⟩
  · exact hroot hh
  · have := (List.getElem?_eq_some_iff.1 hf').1
    rw [show ((0 : U32) - 1).toNat = 0xFFFFFFFF from rfl] at this
    omega

theorem Mounted.counted (hcase : node = st.root ∨ files = []) (index : U32) :
    ∃ p r, Readdir direntry s node index p r ∧
      (p ≠ 0 ↔ index.toNat < if node = st.root then files.length + 1 else 0) ∧
      (p ≠ 0 → ∃ l ino, Lists direntry s node index l ino) := by
  obtain ⟨p, r, hr, hc⟩ := h.readdir him hp he hnode index
  refine ⟨p, r, hr, ?_⟩
  rcases hc with ⟨hp0, hno, hlen⟩ | ⟨l, ino, hp0, hl, hi, hentry⟩
  · refine ⟨⟨fun hne => absurd hp0 hne, fun hlt => ?_⟩, fun hne => absurd hp0 hne⟩
    split at hlt <;> rename_i hroot
    · have hz : index.toNat ≠ 0 := fun hz => hno ⟨hroot, BitVec.eq_of_toNat_eq hz⟩
      rw [toNat_pred fun hz => hno ⟨hroot, hz⟩] at hlen
      omega
    · exact absurd hlt (Nat.not_lt_zero _)
  · refine ⟨⟨fun _ => ?_, fun _ => hp0⟩, fun _ => ⟨l, ino, p, r, hr, hp0, hl, hi⟩⟩
    rcases hentry with ⟨hroot, rfl, -⟩ | ⟨hno, f, hf, -⟩
    · rw [if_pos hroot]
      exact Nat.succ_pos _
    · have hlt := (List.getElem?_eq_some_iff.1 hf).1
      rcases hcase with hroot | rfl
      · rw [toNat_pred fun hz => hno ⟨hroot, hz⟩] at hlt
        rw [if_pos hroot]
        omega
      · exact absurd hlt (Nat.not_lt_zero _)

theorem Mounted.found (hdistinct : files.Pairwise fun f g => f.name ≠ g.name) (hdev : ∀ f ∈ files, f.name ≠ nameDev)
    (hl : StringAt s.mem name l) : ∃ f, Finddir s node name f ∧
      ((∃ index ino, Lists direntry s node index l ino) ↔ f ≠ 0) ∧
      ∀ index ino, Lists direntry s node index l ino → (s.nodes f).inode = ino := by
  have hroom := hp.fits.2.2
  have hlists : ∀ index ino, Lists direntry s node index l ino ↔ EntryOf st files node index l ino :=
    fun index ino => h.lists_iff him hp he hnode
  obtain ⟨f, hf, hc⟩ := h.finddir hp hnode hl
  refine ⟨f, hf, ?_⟩
  simp only [hlists]
  rcases hc with ⟨hroot, rfl, rfl⟩ | ⟨hno, ⟨rfl, hall⟩ | ⟨j, g, hg, rfl, rfl, -⟩⟩
  · -- "dev"
    refine ⟨⟨fun _ => hp.nonnull.2.1, fun _ => ⟨0, 0, Or.inl ⟨hroot, rfl, rfl, rfl⟩⟩⟩, fun index ino hentry => ?_⟩
    rcases hentry with ⟨-, -, -, rfl⟩ | ⟨-, g, hg, hl', -⟩
    · rw [h.devNode]
      rfl
    · exact absurd hl'.symm (hdev g (List.mem_of_getElem? hg))
  · -- no file
    have hnone : ∀ index ino, ¬ EntryOf st files node index l ino := fun index ino hentry => by
      rcases hentry with ⟨hroot, -, hl', -⟩ | ⟨-, g, hg, hl', -⟩
      · exact hno ⟨hroot, hl'⟩
      · exact hall _ g hg hl'.symm
    exact ⟨⟨fun ⟨index, ino, hentry⟩ => absurd hentry (hnone index ino), fun h0 => absurd rfl h0⟩,
      fun index ino hentry => absurd hentry (hnone index ino)⟩
  · -- a file
    have hj := (List.getElem?_eq_some_iff.1 hg).1
    have hat := toNat_nodeAt hp hj
    have hpred : (BitVec.ofNat 32 (j + 1) - 1 : U32) = BitVec.ofNat 32 j := by
      rw [BitVec.ofNat_add]
      exact BitVec.add_sub_cancel ..
    have hjnat : (BitVec.ofNat 32 j).toNat = j := by
      rw [BitVec.toNat_ofNat]
      omega
    have hne : node = st.root ∧ BitVec.ofNat 32 (j + 1) = 0 → False := fun hh => by
      have := congrArg BitVec.toNat hh.2
      rw [BitVec.toNat_ofNat, show (0 : U32).toNat = 0 from rfl] at this
      omega
    refine ⟨⟨fun _ h0 => ?_,
      fun _ => ⟨BitVec.ofNat 32 (j + 1), BitVec.ofNat 32 j, Or.inr ⟨hne, g, ?_, rfl, hpred.symm⟩⟩⟩,
      fun index ino hentry => ?_⟩
    · rw [h0, show (0 : U32).toNat = 0 from rfl] at hat
      exact hp.nonnull.2.2 (BitVec.eq_of_toNat_eq (by rw [show (0 : U32).toNat = 0 from rfl]; omega))
    · rw [hpred, hjnat]
      exact hg
    · rw [h.loading.node j g hj hg]
      rcases hentry with ⟨hroot, -, hl', -⟩ | ⟨-, g', hg', hl', rfl⟩
      · exact absurd ⟨hroot, hl'⟩ hno
      · have := index_unique hdistinct hg hg' hl'
        rw [this, BitVec.ofNat_toNat, BitVec.setWidth_eq]

end Directory

/-- **The listing and the lookup agree on the root**, and on `/dev` only if there is no file. -/
theorem Mounted.agrees_iff (h : Mounted m st location size files s) (him : Image m location size files)
    (hp : Private st location size files.length) (he : Entry st location size files.length direntry)
    (hdistinct : files.Pairwise fun f g => f.name ≠ g.name) (hdev : ∀ f ∈ files, f.name ≠ nameDev)
    (hnode : node = st.root ∨ node = st.dev) : Agrees direntry s node ↔ node = st.root ∨ files = [] := by
  refine ⟨fun ha => Decidable.or_iff_not_imp_left.2 (h.no_file him hp he hnode ha), fun hcase => ?_⟩
  refine ⟨⟨_, h.counted him hp he hnode hcase⟩, fun i j l a b hi hj => ?_, fun name l hl =>
    h.found him hp he hnode hdistinct hdev hl⟩
  exact ((h.lists_iff him hp he hnode).1 hi).unique hdistinct hdev ((h.lists_iff him hp he hnode).1 hj)

theorem mounted_initialiseInitrd {s : Ramdisk} (him : Image s.mem location size files)
    (hp : Private st location size files.length) : ∃ s' steps,
      (∀ fuel, steps ≤ fuel → initialiseInitrd fuel st s location = some s') ∧
      Mounted s.mem st location size files s' := by
  obtain ⟨s', hinit, h, hd, hn⟩ :=
    (loading_makeRoots him hp (s := s) rfl).makeNodes him hp files.length (Nat.zero_add _)
  refine ⟨s', files.length + 65, fun fuel hf => hinit fuel fuel (by omega) (by omega), h, hd, ?_⟩
  refine (hn st.dev fun j hj he => ?_).trans (if_pos rfl)
  have hat := toNat_nodeAt hp hj
  have hapart := hp.apart.2.2
  unfold Apart at hapart
  rw [← he] at hat
  omega

theorem Mounted.listed (h : Mounted m st location size files s) (him : Image m location size files)
    (hp : Private st location size files.length) (he : Entry st location size files.length direntry)
    (hr : Listed direntry s r) : Mounted m st location size files r := by
  induction hr with
  | none => exact h
  | readdir _ hcall ih => exact (ih.after him hp he hcall).1

/-- **Directory listing and lookup**, at every state that calls of `readdir_fs` lead to: on the root they agree, on
`/dev` exactly when there is no file. -/
theorem listing_agrees_lookup {s : Ramdisk} (him : Image s.mem location size files)
    (hp : Private st location size files.length) (he : Entry st location size files.length direntry)
    (hdistinct : files.Pairwise fun f g => f.name ≠ g.name) (hdev : ∀ f ∈ files, f.name ≠ nameDev) :
    ∃ s' steps, (∀ fuel, steps ≤ fuel → initialiseInitrd fuel st s location = some s') ∧
      ∀ r, Listed direntry s' r → ∀ node, node = r.initrd_root ∨ node = r.initrd_dev →
        (Agrees direntry r node ↔ node = r.initrd_root ∨ files = []) := by
  obtain ⟨s', steps, hinit, h⟩ := mounted_initialiseInitrd him hp
  refine ⟨s', steps, hinit, fun r hlisted node hnode => ?_⟩
  have hr := h.listed him hp he hlisted
  rw [hr.loading.root] at hnode ⊢
  rw [hr.dev] at hnode
  exact hr.agrees_iff him hp he hdistinct hdev hnode

theorem entry_placement {size n : Nat} (hs : size ≤ 0x1000) (hn : n ≤ 40) : Entry placement 0x1000 size n 0x6000 := by
  have h1 : (0x1000 : U32).toNat = 0x1000 := rfl
  have h2 : placement.nodes.toNat = 0x4000 := rfl
  have h3 : (0x6000 : U32).toNat = 0x6000 := rfl
  exact ⟨by decide, by decide, .inl (by omega), .inl (by omega)⟩

/-- With two files, after the entry of the second one was read. -/
theorem listing_agrees_lookup_twoFiles : ∃ s' steps,
    (∀ fuel, steps ≤ fuel → initialiseInitrd fuel placement twoFiles 0x1000 = some s') ∧
      ∃ p r, Readdir 0x6000 s' s'.initrd_root 2 p r ∧ Agrees 0x6000 r r.initrd_root ∧
        ¬ Agrees 0x6000 r r.initrd_dev := by
  have hp : Private placement 0x1000 163 abFiles.length := private_placement (by decide) (by decide)
  have he : Entry placement 0x1000 163 abFiles.length 0x6000 := entry_placement (by decide) (by decide)
  obtain ⟨s', n, hinit, h⟩ := listing_agrees_lookup (s := twoFiles) twoFiles_image hp he
    (by decide) (by decide)
  obtain ⟨v, n', hinit', hv⟩ := mounted_initialiseInitrd (s := twoFiles) twoFiles_image hp
  obtain rfl : s' = v := Option.some.inj ((hinit (n + n') (by omega)).symm.trans (hinit' (n + n') (by omega)))
  obtain ⟨p, r, hr, -⟩ := hv.readdir twoFiles_image hp he (Or.inl hv.loading.root) 2
  refine ⟨s', n, hinit, p, r, hr, (h r (.readdir .none hr) _ (Or.inl rfl)).2 (Or.inl rfl), fun hdev => ?_⟩
  have hm := (hv.after twoFiles_image hp he hr).1
  rcases (h r (.readdir .none hr) _ (Or.inr rfl)).1 hdev with hroot | hnil
  · rw [hm.dev, hm.loading.root] at hroot
    exact absurd hroot (by decide)
  · cases hnil

/-- With one file, the listing of `/dev` ends at index 0 although index 1 is the file. -/
theorem dev_listing_disagrees : ∃ s' steps,
    (∀ fuel, steps ≤ fuel → initialiseInitrd fuel placement oneFile 0x1000 = some s') ∧
      ¬ Agrees 0x6000 s' s'.initrd_dev := by
  have hp : Private placement 0x1000 81 1 := private_placement (by decide) (by decide)
  obtain ⟨s', steps, hinit, h⟩ := mounted_initialiseInitrd oneFile_image hp
  refine ⟨s', steps, hinit, fun ha => ?_⟩
  rw [h.dev] at ha
  rcases (h.agrees_iff oneFile_image hp (entry_placement (by decide) (by decide)) (List.pairwise_singleton ..)
    (by decide) (Or.inr rfl)).1 ha with hroot | hnil
  · exact absurd hroot (by decide)
  · cases hnil

end Ramdisk

end Loris
