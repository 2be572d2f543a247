import Loris.InitrdDirectory
import Loris.InitrdBounds
/-!
# FileSystem — `read_fs`, `readdir_fs` and `finddir_fs` on a mounted ramdisk, over runs of calls

Any number of clients call in any order, on any node, and the rest of the kernel writes to memory apart from the image
and the nodes.  `Mounted` is the invariant; each call ends, answers from the list of files, and writes over no node
(`Mounted.answers`), so every call of a run does (`session`).
-/
namespace Loris

open ByteMem Runs

/-- A call of `FileSystem.h`; or the rest of the kernel leaves `m` in memory. -/
inductive FsCall where
  | read (node offset size buffer : U32)
  | readdir (node index : U32)
  | finddir (node name : U32)
  | elsewhere (m : Mem)

inductive FsAnswer where
  | count (n : U32)
  | entry (p : U32)
  | node (p : U32)
  | nothing

namespace Ramdisk

def fsCall (fuel : Nat) (direntry : U32) (s : Ramdisk) : FsCall → Option (FsAnswer × Ramdisk)
  | .read node offset size buffer =>
    let r := s.readFs node offset size buffer
    some (.count r.1, r.2)
  | .readdir node index => (s.readdirFs fuel direntry node index).map fun r => (.entry r.1, r.2)
  | .finddir node name => (s.finddirFs fuel node name).map fun p => (.node p, s)
  | .elsewhere m => some (.nothing, { s with mem := m })

/-- A call ends with an answer. -/
def Ends (direntry : U32) (s : Ramdisk) (call : FsCall) (a : FsAnswer) (t : Ramdisk) : Prop :=
  ∃ steps, ∀ fuel, steps ≤ fuel → fsCall fuel direntry s call = some (a, t)

def FsStep (direntry : U32) (s : Ramdisk) (call : FsCall) (t : Ramdisk) : Prop := ∃ a, Ends direntry s call a t

/-- A byte of the image, or of the storage of a node. -/
def Held (st : Storage) (location : U32) (size n : Nat) (x : U32) : Prop :=
  (location.toNat ≤ x.toNat ∧ x.toNat < location.toNat + size) ∨
    (st.nodes.toNat ≤ x.toNat ∧ x.toNat < st.nodes.toNat + 184 * n) ∨
    (st.root.toNat ≤ x.toNat ∧ x.toNat < st.root.toNat + 184) ∨
    (st.dev.toNat ≤ x.toNat ∧ x.toNat < st.dev.toNat + 184)

/-- The image and the nodes are as they were. -/
def Kept (st : Storage) (location : U32) (size n : Nat) (m m' : Mem) : Prop :=
  ∀ x : U32, Held st location size n x → m' x = m x

/-- The `len` bytes at `p` are apart from the image and from every node. -/
structure Outside (st : Storage) (location : U32) (size n : Nat) (p : U32) (len : Nat) : Prop where
  image : Apart location.toNat size p.toNat len
  nodes : Apart st.nodes.toNat (184 * n) p.toNat len
  root : Apart st.root.toNat 184 p.toNat len
  dev : Apart st.dev.toNat 184 p.toNat len

/-- The global entry is apart from the nodes of the directories too. -/
structure EntryOutside (st : Storage) (location : U32) (size n : Nat) (direntry : U32) : Prop
    extends Entry st location size n direntry where
  root : Apart st.root.toNat 184 direntry.toNat 132
  dev : Apart st.dev.toNat 184 direntry.toNat 132

def IsDirectory (st : Storage) (node : U32) : Prop := node = st.root ∨ node = st.dev

/-- A node of the ramdisk. -/
def IsNode (st : Storage) (n : Nat) (node : U32) : Prop := IsDirectory st node ∨ ∃ i, i < n ∧ node = nodeAt st i

/-- What a caller keeps to: nodes of the ramdisk, buffers apart from it, and no read whose end wraps. -/
def Proper (st : Storage) (location : U32) (size n : Nat) (s : Ramdisk) : FsCall → Prop
  | .read node offset length buffer => IsNode st n node ∧ offset.toNat + length.toNat < 2 ^ 32 ∧
    buffer.toNat + length.toNat ≤ 2 ^ 32 ∧ Outside st location size n buffer length.toNat
  | .readdir node _ => IsNode st n node
  | .finddir node name => IsNode st n node ∧ ∃ l, StringAt s.mem name l
  | .elsewhere m => Kept st location size n s.mem m

/-- The file that a node stands for. -/
def FileOf (st : Storage) (files : List File) (node : U32) (f : File) : Prop :=
  ∃ i : Nat, files[i]? = some f ∧ node = nodeAt st i

/-- What a directory holds under a name: `/dev` in the root, and else the first file of the name. -/
def Named (st : Storage) (files : List File) (node : U32) (l : List Byte) (p : U32) : Prop :=
  (node = st.root ∧ l = nameDev ∧ p = st.dev) ∨
    ¬ (node = st.root ∧ l = nameDev) ∧ ∃ (i : Nat) (f : File), files[i]? = some f ∧ f.name = l ∧ p = nodeAt st i ∧
      ∀ j g, j < i → files[j]? = some g → g.name ≠ l

/-- **The answers of the file system**, from the files: the bytes of a file from an offset on, as many as asked for and
as there are; the entries of a directory; and the node of a name. -/
def Answers (st : Storage) (files : List File) (s : Ramdisk) (t : Ramdisk) : FsCall → FsAnswer → Prop
  | .read node offset size buffer, .count n =>
    (∀ f, FileOf st files node f →
      (List.range n.toNat).map (bytesFrom t.mem buffer) = (f.content.drop offset.toNat).take size.toNat) ∧
    (IsDirectory st node → n = 0) ∧ Keeps buffer.toNat (buffer.toNat + n.toNat) s.mem t.mem
  | .readdir node index, .entry p =>
    (IsDirectory st node ∧ ∃ l ino, p ≠ 0 ∧ StringAt t.mem p l ∧ load t.mem (p + 128) = ino ∧
      EntryOf st files node index l ino) ∨
    p = 0 ∧ ¬ (IsDirectory st node ∧ ∃ l ino, EntryOf st files node index l ino)
  | .finddir node name, .node p => t.mem = s.mem ∧ ∀ l, StringAt s.mem name l →
    (IsDirectory st node ∧ Named st files node l p) ∨ p = 0 ∧ ¬ (IsDirectory st node ∧ ∃ q, Named st files node l q)
  | .elsewhere m, .nothing => t.mem = m
  | _, _ => False

variable {m m' : Mem} {st : Storage} {s t r : Ramdisk} {location direntry node index name : U32} {size i : Nat}
  {files : List File} {f : File} {l : List Byte} {call : FsCall} {a : FsAnswer}

/-! ## The invariant -/

/-- What is written apart from image and nodes leaves them. -/
theorem Outside.kept {n len : Nat} {p : U32} (h : Outside st location size n p len)
    (hk : Keeps p.toNat (p.toNat + len) m m') : Kept st location size n m m' := fun x hx => by
  obtain ⟨h1, h2, h3, h4⟩ := h
  unfold Apart at h1 h2 h3 h4
  refine hk x ?_
  rcases hx with hx | hx | hx | hx <;> omega

theorem EntryOutside.outside {n : Nat} (he : EntryOutside st location size n direntry) :
    Outside st location size n direntry 132 :=
  ⟨he.image, he.nodes, he.root, he.dev⟩

theorem Mounted.kept (h : Mounted m st location size files s) (him : Image m location size files)
    (hp : Private st location size files.length) (hm : Kept st location size files.length s.mem m') :
    Mounted m st location size files { s with mem := m' } := by
  have hfit := him.fits
  have hhead := him.headers
  have hroom := hp.fits.2.2
  obtain ⟨hl, hd, hdn⟩ := h
  refine ⟨⟨hl.header, hl.headers, hl.root, hl.rootNodes, hl.count, fun x hlo hhi hx => ?_, fun j hj => ?_,
    fun j f hj hf => ?_, hl.node, hl.rootNode⟩, hd, hdn⟩
  · exact (hm x (.inl ⟨hlo, hhi⟩)).trans (hl.bytes x hlo hhi hx)
  · obtain ⟨-, h2, -⟩ := @toNat_fields location j (by omega)
    refine (load_congr fun x hx => ?_).trans (hl.offset j hj)
    rw [BitVec.toNat_sub] at hx
    have := x.isLt
    exact hm x (.inl (by omega))
  · have hnode := toNat_nodeAt hp hj
    have hlen := (him.name j f hf).2
    exact (hl.name j f hj hf).congr (by omega) fun x hlo hhi => hm x (.inr (.inl (by omega)))

/-! ## The calls -/

theorem fileOf_node (h : Mounted m st location size files s) (hf : files[i]? = some f) : s.nodes (nodeAt st i) =
    ⟨fsFile, BitVec.ofNat 32 i, load m (fieldLength (headerAt location i)), some .initrd_read, none, none⟩ :=
  h.loading.node i f (List.getElem?_eq_some_iff.1 hf).1 hf

theorem IsDirectory.nodes_eq (hd : IsDirectory st node) (h : Mounted m st location size files s) :
    s.nodes node = directory := by
  rcases hd with rfl | rfl
  · exact h.loading.rootNode
  · exact h.devNode

/-- A directory is no file. -/
theorem FileOf.not_directory (hf : FileOf st files node f) (h : Mounted m st location size files s) :
    ¬ IsDirectory st node := fun hd => by
  obtain ⟨i, hi, rfl⟩ := hf
  have := (fileOf_node h hi).symm.trans (hd.nodes_eq h)
  exact Option.some_ne_none _ (congrArg FsNode.read this)

theorem FileOf.unique {g : File} (hp : Private st location size files.length) (hf : FileOf st files node f)
    (hg : FileOf st files node g) : f = g := by
  obtain ⟨i, hi, rfl⟩ := hf
  obtain ⟨j, hj, he⟩ := hg
  obtain rfl : i = j := Decidable.byContradiction fun hne =>
    nodeAt_ne hp (List.getElem?_eq_some_iff.1 hi).1 (List.getElem?_eq_some_iff.1 hj).1 hne he
  exact Option.some.inj (hi.symm.trans hj)

theorem IsNode.cases (hn : IsNode st files.length node) : IsDirectory st node ∨ ∃ f, FileOf st files node f :=
  hn.imp_right fun ⟨i, hi, he⟩ => ⟨files[i], i, List.getElem?_eq_getElem hi, he⟩

theorem Mounted.readFs (h : Mounted m st location size files s) (him : Image m location size files)
    (hp : Private st location size files.length) {offset length buffer : U32}
    (hc : Proper st location size files.length s (.read node offset length buffer)) :
    ∃ (n : U32) (m' : Mem), s.readFs node offset length buffer = (n, { s with mem := m' }) ∧
      Kept st location size files.length s.mem m' ∧
      Answers st files s { s with mem := m' } (.read node offset length buffer) (.count n) := by
  obtain ⟨hn, hw, hb, hclear⟩ := hc
  rcases hn.cases with hd | ⟨f, hf⟩
  · refine ⟨0, s.mem, ?_, fun _ _ => rfl, fun f hf => absurd hd (hf.not_directory h), fun _ => rfl, Keeps.refl _ _ _⟩
    rw [Ramdisk.readFs, hd.nodes_eq h]
    rfl
  · obtain ⟨i, hi, rfl⟩ := id hf
    obtain ⟨n, m', hread, hmin, hk, hbytes⟩ := (h.loading.readable him hi).1.reads him.fits hw ⟨hb, hclear.image⟩
    refine ⟨n, m', hread, hclear.kept (hk.mono (Nat.le_refl _) (by omega)), fun g hg => ?_,
      fun hd => absurd hd (hf.not_directory h), hk⟩
    rw [← hf.unique hp hg]
    exact hbytes

/-- `readdir_fs` and `finddir_fs` look at the flags first. -/
theorem FileOf.flags (hf : FileOf st files node f) (h : Mounted m st location size files s) :
    (s.nodes node).flags &&& 0x7 ≠ fsDirectory := by
  obtain ⟨i, hi, rfl⟩ := hf
  rw [fileOf_node h hi]
  exact (by decide : fsFile &&& 0x7 ≠ fsDirectory)

theorem Mounted.readdirFs (h : Mounted m st location size files s) (him : Image m location size files)
    (hp : Private st location size files.length) (he : Entry st location size files.length direntry)
    (hn : IsNode st files.length node) (index : U32) :
    ∃ p r, Readdir direntry s node index p r ∧ Answers st files s r (.readdir node index) (.entry p) := by
  rcases hn.cases with hd | ⟨f, hf⟩
  · obtain ⟨p, r, hr, hcase⟩ := h.readdir him hp he hd index
    refine ⟨p, r, hr, ?_⟩
    rcases hcase with ⟨rfl, hno, hlen⟩ | hentry
    · refine Or.inr ⟨rfl, fun ⟨_, l, ino, hentry⟩ => ?_⟩
      rcases hentry with ⟨hroot, hz, -⟩ | ⟨-, f, hf, -⟩
      · exact hno ⟨hroot, hz⟩
      · exact absurd (List.getElem?_eq_some_iff.1 hf).1 (Nat.not_lt.2 hlen)
    · exact Or.inl ⟨hd, hentry⟩
  · refine ⟨0, s, ⟨0, fun fuel _ => ?_⟩, Or.inr ⟨rfl, fun hd => hf.not_directory h hd.1⟩⟩
    rw [Ramdisk.readdirFs, if_pos (Or.inl (hf.flags h))]

theorem Mounted.finddirFs (h : Mounted m st location size files s) (hp : Private st location size files.length)
    (hn : IsNode st files.length node) (hl : StringAt s.mem name l) :
    ∃ p, Finddir s node name p ∧ Answers st files s s (.finddir node name) (.node p) := by
  have huniq : ∀ {l'}, StringAt s.mem name l' → l' = l := fun hl' => IsString.unique hl' hl
  rcases hn.cases with hd | ⟨f, hf⟩
  · obtain ⟨p, hfind, hcase⟩ := h.finddir hp hd hl
    refine ⟨p, hfind, rfl, fun l' hl' => ?_⟩
    obtain rfl := huniq hl'
    rcases hcase with hdev | ⟨hno, ⟨rfl, hall⟩ | hfirst⟩
    · exact Or.inl ⟨hd, Or.inl hdev⟩
    · refine Or.inr ⟨rfl, fun ⟨_, q, hq⟩ => ?_⟩
      rcases hq with ⟨hroot, hdev, -⟩ | ⟨-, j, g, hg, hname, -⟩
      · exact hno ⟨hroot, hdev⟩
      · exact hall j g hg hname
    · exact Or.inl ⟨hd, Or.inr ⟨hno, hfirst⟩⟩
  · refine ⟨0, ⟨0, fun fuel _ => ?_⟩, rfl, fun l' _ => Or.inr ⟨rfl, fun hd => hf.not_directory h hd.1⟩⟩
    rw [Ramdisk.finddirFs, if_pos (Or.inl (hf.flags h))]

/-- **One call** ends, answers from the files, and leaves image and nodes and the ramdisk mounted. -/
theorem Mounted.answers (h : Mounted m st location size files s) (him : Image m location size files)
    (hp : Private st location size files.length) (he : EntryOutside st location size files.length direntry)
    (hc : Proper st location size files.length s call) : ∃ a t, Ends direntry s call a t ∧
      Answers st files s t call a ∧ Kept st location size files.length s.mem t.mem ∧
      Mounted m st location size files t := by
  cases call with
  | read node offset length buffer =>
    obtain ⟨n, m', hread, hk, hans⟩ := h.readFs him hp hc
    refine ⟨_, _, ⟨0, fun fuel _ => ?_⟩, hans, hk, h.kept him hp hk⟩
    rw [fsCall, hread]
  | readdir node index =>
    obtain ⟨p, r, hr, hans⟩ := h.readdirFs him hp he.toEntry hc index
    obtain ⟨hr', hk⟩ := h.after him hp he.toEntry hr
    obtain ⟨steps, hrun⟩ := hr
    refine ⟨_, r, ⟨steps, fun fuel hfuel => ?_⟩, hans, he.outside.kept hk, hr'⟩
    rw [fsCall, hrun fuel hfuel]
    rfl
  | finddir node name =>
    obtain ⟨hn, l, hl⟩ := hc
    obtain ⟨p, ⟨steps, hrun⟩, hans⟩ := h.finddirFs hp hn hl
    refine ⟨_, s, ⟨steps, fun fuel hfuel => ?_⟩, hans, fun _ _ => rfl, h⟩
    rw [fsCall, hrun fuel hfuel]
    rfl
  | elsewhere m' => exact ⟨.nothing, _, ⟨0, fun _ _ => rfl⟩, rfl, hc, h.kept him hp hc⟩

theorem Ends.unique {b : FsAnswer} {u : Ramdisk} (h : Ends direntry s call a t) (h' : Ends direntry s call b u) :
    a = b ∧ t = u := by
  obtain ⟨n, h⟩ := h
  obtain ⟨n', h'⟩ := h'
  have hrun := h (n + n') (by omega)
  rw [h' (n + n') (by omega), Option.some.injEq, Prod.mk.injEq] at hrun
  exact ⟨hrun.1.symm, hrun.2.symm⟩

/-! ## Runs -/

/-- **The ramdisk stays mounted** along every run of proper calls. -/
theorem Mounted.run (him : Image m location size files) (hp : Private st location size files.length)
    (he : EntryOutside st location size files.length direntry) : ∀ {calls : List FsCall} {s : Ramdisk},
      Mounted m st location size files s → Reaches (FsStep direntry) s calls t →
        Guarded (FsStep direntry) (Proper st location size files.length) s calls →
          Mounted m st location size files t
  | [], s, h, hr, _ => (show s = t from hr) ▸ h
  | call :: calls, s, h, ⟨u, hstep, hr⟩, hg => by
    obtain ⟨a, hu⟩ := id hstep
    obtain ⟨b, v, hv, -, -, hm⟩ := h.answers him hp he hg.1
    obtain ⟨-, rfl⟩ := hv.unique hu
    exact hm.run him hp he hr (hg.2 v hstep)

/-- **The file system, over whole runs.**  Over an image of files `initialise_initrd` ends, and in every state that
proper calls lead to, of any clients in any order, every proper call ends with the answer that the files give, and
writes over neither the image nor a node. -/
theorem session {s : Ramdisk} (him : Image s.mem location size files) (hp : Private st location size files.length)
    (he : EntryOutside st location size files.length direntry) :
    ∃ s' steps, (∀ fuel, steps ≤ fuel → initialiseInitrd fuel st s location = some s') ∧
      ∀ calls t, Reaches (FsStep direntry) s' calls t →
        Guarded (FsStep direntry) (Proper st location size files.length) s' calls →
          ∀ call, Proper st location size files.length t call →
            ∃ a u, Ends direntry t call a u ∧ Answers st files t u call a ∧
              Kept st location size files.length t.mem u.mem := by
  obtain ⟨s', steps, hinit, h⟩ := mounted_initialiseInitrd him hp
  refine ⟨s', steps, hinit, fun calls t hr hg call hc => ?_⟩
  obtain ⟨a, u, hends, hans, hk, -⟩ := (h.run him hp he hr hg).answers him hp he hc
  exact ⟨a, u, hends, hans, hk⟩

theorem Ends.step_unique {u : Ramdisk} (h : Ends direntry s call a t) (h' : FsStep direntry s call u) : u = t :=
  h'.elim fun _ h' => (h'.unique h).2

theorem entryOutside_placement {size n : Nat} (hs : size ≤ 0x1000) (hn : n ≤ 40) :
    EntryOutside placement 0x1000 size n 0x6000 where
  toEntry := entry_placement hs hn
  root := .inl (by decide)
  dev := .inl (by decide)

/-- Two files: the second one's entry, its bytes from the second on, a name that is written elsewhere, and the node of
that name. -/
theorem session_twoFiles : ∃ s' steps,
    (∀ fuel, steps ≤ fuel → initialiseInitrd fuel placement twoFiles 0x1000 = some s') ∧ ∃ r n u t v,
      FsStep 0x6000 s' (.readdir 0x2000 2) r ∧ Ends 0x6000 r (.read 0x40B8 1 16 0x8000) (.count n) u ∧
        (List.range n.toNat).map (bytesFrom u.mem 0x8000) = [7] ∧
        Ends 0x6000 u (.elsewhere (store u.mem 0x9000 0x62)) .nothing t ∧
        Ends 0x6000 t (.finddir 0x2000 0x9000) (.node 0x40B8) v := by
  have hp : Private placement 0x1000 163 abFiles.length := private_placement (by decide) (by decide)
  have he : EntryOutside placement 0x1000 163 abFiles.length 0x6000 := entryOutside_placement (by decide) (by decide)
  have hroot : IsDirectory placement 0x2000 := .inl rfl
  have hlast : ∃ i, i < abFiles.length ∧ (0x40B8 : U32) = nodeAt placement i := ⟨1, by decide, by decide⟩
  obtain ⟨s', steps, hinit, h⟩ := session (s := twoFiles) twoFiles_image hp he
  -- the entry
  have hreaddir : Proper placement 0x1000 163 abFiles.length s' (.readdir 0x2000 2) := .inl hroot
  obtain ⟨_, r, hr, -⟩ := h [] s' rfl trivial _ hreaddir
  have hr' : FsStep 0x6000 s' (.readdir 0x2000 2) r := ⟨_, hr⟩
  -- the bytes
  have hread : Proper placement 0x1000 163 abFiles.length r (.read 0x40B8 1 16 0x8000) :=
    ⟨.inr hlast, by decide, by decide, .inl (by decide), .inl (by decide), .inl (by decide), .inl (by decide)⟩
  obtain ⟨a, u, hu, hbytes, -⟩ := h [_] r (reaches_one hr') ⟨hreaddir, fun _ _ => trivial⟩ _ hread
  have hu' : FsStep 0x6000 r (.read 0x40B8 1 16 0x8000) u := ⟨_, hu⟩
  obtain ⟨n, rfl⟩ : ∃ n, a = .count n := by
    cases a with
    | count n => exact ⟨n, rfl⟩
    | _ => exact hbytes.elim
  -- the name
  have hstore : Proper placement 0x1000 163 abFiles.length u (.elsewhere (store u.mem 0x9000 0x62)) :=
    Outside.kept (show Outside placement 0x1000 163 abFiles.length 0x9000 4 from
      ⟨.inl (by decide), .inl (by decide), .inl (by decide), .inl (by decide)⟩) (keeps_store _ _ _ (by decide))
  have hg : Guarded (FsStep 0x6000) (Proper placement 0x1000 163 abFiles.length) s'
      [.readdir 0x2000 2, .read 0x40B8 1 16 0x8000, .elsewhere (store u.mem 0x9000 0x62)] :=
    .cons hreaddir (fun _ => hr.step_unique) (.cons hread (fun _ => hu.step_unique) ⟨hstore, fun _ _ => trivial⟩)
  have ht : Ends 0x6000 u (.elsewhere (store u.mem 0x9000 0x62)) .nothing { u with mem := store u.mem 0x9000 0x62 } :=
    ⟨0, fun _ _ => rfl⟩
  -- the node of the name
  have hname : StringAt (store u.mem 0x9000 0x62) 0x9000 [0x62] :=
    stringAt_cons.2 ⟨by decide, rfl, stringAt_nil.2 rfl⟩
  have hrun : Reaches (FsStep 0x6000) s'
      [.readdir 0x2000 2, .read 0x40B8 1 16 0x8000, .elsewhere (store u.mem 0x9000 0x62)] _ :=
    .cons hr' (.cons hu' (reaches_one ⟨_, ht⟩))
  obtain ⟨b, v, hv, hnode, -⟩ := h _ _ hrun hg (.finddir 0x2000 0x9000) ⟨.inl hroot, _, hname⟩
  refine ⟨s', steps, hinit, r, n, u, _, v, hr', hu, hbytes.1 ⟨[0x62], [6, 7]⟩ ⟨1, rfl, by decide⟩, ht, ?_⟩
  obtain ⟨p, rfl⟩ : ∃ p, b = .node p := by
    cases b with
    | node p => exact ⟨p, rfl⟩
    | _ => exact hnode.elim
  rcases hnode.2 _ hname with ⟨-, hdev | ⟨-, i, f, hi, hf, rfl, -⟩⟩ | ⟨-, hno⟩
  · exact absurd hdev.2.1 (by decide)
  · obtain rfl : i = 1 := index_unique (by decide) hi (g := ⟨[0x62], [6, 7]⟩) rfl hf
    exact hv
  · refine absurd ⟨hroot, _, .inr ⟨fun hh => absurd hh.2 (by decide), 1, ⟨[0x62], [6, 7]⟩, rfl, rfl, rfl, ?_⟩⟩ hno
    intro j g hj hg
    obtain rfl : j = 0 := Nat.lt_one_iff.1 hj
    obtain rfl := Option.some.inj hg
    decide

end Ramdisk

end Loris
