import Loris.Boot
/-!
# Placement — `kmalloc` before the heap

Without a heap `kmalloc` hands out what lies behind `placement_address`, from the next page boundary on if the caller
wants a page, and moves it to the end of that.  Nothing is given back, so the regions of any sequence of requests lie
one behind the other.
-/
namespace Loris
namespace Kernel

open ByteMem

def kmalloc_a (alloc : Allocator) (k : Kernel) (size : U32) : Option (U32 × Kernel) :=
  (kmalloc alloc k size true).map fun r => (r.1, r.2.2)

def kmalloc_p (alloc : Allocator) (k : Kernel) (size : U32) : Option (U32 × Option U32 × Kernel) :=
  kmalloc alloc k size false

def kmalloc_ap (alloc : Allocator) (k : Kernel) (size : U32) : Option (U32 × Option U32 × Kernel) :=
  kmalloc alloc k size true

/-- A call of one of the four functions; `phys` tells whether its pointer is there. -/
inductive Request where
  | kmalloc (size : U32) (align phys : Bool)
  | kmalloc_a (size : U32)
  | kmalloc_p (size : U32) (phys : Bool)
  | kmalloc_ap (size : U32) (phys : Bool)

/-- What a call returns, what it leaves behind its `phys`, and `placement_address` after it. -/
structure Region where
  request : Request
  start : U32
  phys : Option U32
  placement : U32

namespace Request

def size : Request → U32
  | .kmalloc size _ _ => size
  | .kmalloc_a size => size
  | .kmalloc_p size _ => size
  | .kmalloc_ap size _ => size

def align : Request → Bool
  | .kmalloc _ align _ => align
  | .kmalloc_a _ => true
  | .kmalloc_p _ _ => false
  | .kmalloc_ap _ _ => true

def phys : Request → Bool
  | .kmalloc _ _ phys => phys
  | .kmalloc_a _ => false
  | .kmalloc_p _ phys => phys
  | .kmalloc_ap _ phys => phys

def call (alloc : Allocator) (k : Kernel) : Request → Option (Region × Kernel)
  | .kmalloc size align phys => (k.kmalloc alloc size align).map fun (p, w, k) =>
      (⟨.kmalloc size align phys, p, if phys then w else none, k.placement_address⟩, k)
  | .kmalloc_a size => (k.kmalloc_a alloc size).map fun (p, k) =>
      (⟨.kmalloc_a size, p, none, k.placement_address⟩, k)
  | .kmalloc_p size phys => (k.kmalloc_p alloc size).map fun (p, w, k) =>
      (⟨.kmalloc_p size phys, p, if phys then w else none, k.placement_address⟩, k)
  | .kmalloc_ap size phys => (k.kmalloc_ap alloc size).map fun (p, w, k) =>
      (⟨.kmalloc_ap size phys, p, if phys then w else none, k.placement_address⟩, k)

/-- Where a region starts behind `e`. -/
def startFrom (r : Request) (e : Nat) : Nat := if r.align then e / 0x1000 * 0x1000 + 0x1000 else e

def finish (r : Request) (e : Nat) : Nat := r.startFrom e + r.size.toNat

end Request

/-- A sequence of calls. -/
def allocate (alloc : Allocator) : List Request → Kernel → Option (List Region × Kernel)
  | [], k => some ([], k)
  | r :: l, k => (r.call alloc k).bind fun (p, k) => (allocate alloc l k).map fun (ps, k) => (p :: ps, k)

/-- The end of the last region, without a bound on addresses. -/
def runningEnd : List Request → Nat → Nat
  | [], e => e
  | r :: l, e => runningEnd l (r.finish e)

/-- The region is as its request wants it. -/
structure Region.Serves (p : Region) : Prop where
  aligned : p.request.align = true → p.start.toNat % 0x1000 = 0
  phys : p.phys = if p.request.phys then some p.start else none
  placement : p.placement.toNat = p.start.toNat + p.request.size.toNat

variable {k : Kernel} {alloc : Allocator} {r : Request} {l : List Request} {e : Nat}

theorem Request.le_startFrom (r : Request) (e : Nat) : e ≤ r.startFrom e := by
  unfold startFrom
  split <;> omega

theorem le_runningEnd : ∀ {l : List Request} {e : Nat}, e ≤ runningEnd l e
  | [], e => Nat.le_refl e
  | r :: _, e => (r.le_startFrom e).trans ((Nat.le_add_right _ _).trans le_runningEnd)

/-- `startFrom` in 32 bits. -/
def Request.place (r : Request) (p : U32) : U32 := if r.align then nextPage p else p

/-- **The four functions are one**, from `0x1000` on. -/
theorem Request.call_eq (hk : k.kheap = 0) (hp : 0x1000 ≤ k.placement_address.toNat) (r : Request) :
    r.call alloc k = some (⟨r, r.place k.placement_address, if r.phys then some (r.place k.placement_address) else none,
      r.place k.placement_address + r.size⟩,
      { k with placement_address := r.place k.placement_address + r.size }) := by
  have ha := @kmalloc_aligned k alloc hk hp
  have hn := @kmalloc_plain k alloc hk
  cases r with
  | kmalloc size al phys => cases al <;> simp [call, ha, hn, place, align, Request.phys, Request.size]
  | kmalloc_a size => simp [call, Kernel.kmalloc_a, ha, place, align, Request.phys, Request.size]
  | kmalloc_p size phys => simp [call, Kernel.kmalloc_p, hn, place, align, Request.phys, Request.size]
  | kmalloc_ap size phys => simp [call, Kernel.kmalloc_ap, ha, place, align, Request.phys, Request.size]

theorem Request.toNat_place {p : U32} (hfit : r.finish p.toNat < 2 ^ 32) :
    (r.place p).toNat = r.startFrom p.toNat ∧ (r.place p + r.size).toNat = r.finish p.toNat := by
  have hplace : (r.place p).toNat = r.startFrom p.toNat := by
    unfold finish startFrom at hfit
    unfold place startFrom
    split
    · next hal =>
      rw [if_pos hal] at hfit
      exact toNat_nextPage (by omega)
    · rfl
  refine ⟨hplace, ?_⟩
  rw [BitVec.toNat_add, hplace]
  exact Nat.mod_eq_of_lt hfit

/-- **One request**: its region starts at the end of the last one or behind, and ends where the next may start. -/
theorem Request.call_spec (hk : k.kheap = 0) (hp : 0x1000 ≤ k.placement_address.toNat)
    (hfit : r.finish k.placement_address.toNat < 2 ^ 32) :
    ∃ p : Region, r.call alloc k = some (p, { k with placement_address := p.placement }) ∧ p.request = r ∧ p.Serves ∧
      k.placement_address.toNat ≤ p.start.toNat ∧ p.placement.toNat = r.finish k.placement_address.toNat := by
  obtain ⟨hstart, hend⟩ := toNat_place hfit
  refine ⟨_, call_eq hk hp r, rfl, ⟨fun hal => ?_, rfl, ?_⟩, ?_, hend⟩
  · have hal' : r.align = true := hal
    rw [hstart, startFrom, if_pos hal']
    omega
  · rw [hend, hstart]
    rfl
  · rw [hstart]
    exact r.le_startFrom _

/-- **Regions given out before the heap lie one behind the other**, as their requests want them, and behind the last of
them `placement_address` stands. -/
theorem placement_disjoint : ∀ {l : List Request} {k : Kernel}, k.kheap = 0 → 0x1000 ≤ k.placement_address.toNat →
    runningEnd l k.placement_address.toNat < 2 ^ 32 → ∃ ps : List Region,
      allocate alloc l k = some (ps, { k with
        placement_address := (ps.getLast?.map Region.placement).getD k.placement_address }) ∧
      ps.map Region.request = l ∧ (∀ p ∈ ps, p.Serves ∧ k.placement_address.toNat ≤ p.start.toNat) ∧
      ps.Pairwise fun p q => p.start.toNat + p.request.size.toNat ≤ q.start.toNat
  | [], _, _, _, _ => ⟨[], rfl, rfl, fun _ h => (List.not_mem_nil h).elim, List.Pairwise.nil⟩
  | r :: l, k, hk, hp, hend => by
    obtain ⟨p, hcall, hreq, hserves, hle, hfin⟩ := @Request.call_spec k alloc r hk hp (le_runningEnd.trans_lt hend)
    have hpl := hserves.placement
    obtain ⟨ps, hrun, hmap, hall, hpair⟩ := placement_disjoint (k := { k with placement_address := p.placement }) hk
      (by show 0x1000 ≤ p.placement.toNat; omega)
      (by show runningEnd l p.placement.toNat < 2 ^ 32; rw [hfin]; exact hend)
    refine ⟨p :: ps, ?_, by rw [List.map_cons, hreq, hmap], fun q hq => ?_,
      List.pairwise_cons.2 ⟨fun q hq => ?_, hpair⟩⟩
    · rw [allocate, hcall, Option.bind_some]
      show (allocate alloc l _).map _ = _
      rw [hrun, Option.map_some, List.getLast?_cons, Option.map_some, Option.getD_some]
      cases ps.getLast? <;> rfl
    · rcases List.mem_cons.1 hq with rfl | hq
      · exact ⟨hserves, hle⟩
      · have h1 : p.placement.toNat ≤ q.start.toNat := (hall q hq).2
        exact ⟨(hall q hq).1, by omega⟩
    · have h1 : p.placement.toNat ≤ q.start.toNat := (hall q hq).2
      omega

theorem placement_disjoint_imageAt1M : ∃ ps k', allocate (Kernel.alloc 0)
    [.kmalloc 128 false false, .kmalloc_a 8196, .kmalloc_ap 4096 true, .kmalloc_p 0 true] imageAt1M = some (ps, k') ∧
      ps.Pairwise fun p q => p.start.toNat + p.request.size.toNat ≤ q.start.toNat := by
  obtain ⟨ps, hrun, -, -, hpair⟩ := @placement_disjoint (Kernel.alloc 0)
    [.kmalloc 128 false false, .kmalloc_a 8196, .kmalloc_ap 4096 true, .kmalloc_p 0 true] imageAt1M rfl (by decide)
    (by decide)
  exact ⟨ps, _, hrun, hpair⟩

end Kernel
end Loris
