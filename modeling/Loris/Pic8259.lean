import Mathlib.Data.List.Basic
/-!
# Pic8259 — two 8259A interrupt controllers in cascade

A controller latches requests, and has a line in service from when the processor takes its interrupt until it is told of
the end.  It passes on the unmasked request of the least number, when no line of that number or a lesser one is in
service.  The output of the slave is request 2 of the master.

Requests are edges, a line that was raised stays up until its interrupt is taken, and priorities are fixed.  Of the
commands those are modelled that begin an initialisation or end an interrupt; on others a controller stays as it is.
-/
namespace Pic8259

/-- What the next write to the data port is taken for. -/
inductive Stage where
  | icw2 | icw3 | icw4 | ready
  deriving DecidableEq

structure Chip where
  /-- Requests, lines in service, and the mask. -/
  irr : BitVec 8
  isr : BitVec 8
  imr : BitVec 8
  icw1 : BitVec 8
  /-- The vector of line 0. -/
  base : BitVec 8
  cascade : BitVec 8
  mode : BitVec 8
  stage : Stage
  deriving DecidableEq

def setBit (b : BitVec 8) (i : Nat) : BitVec 8 := b ||| (1#8 <<< i)
def clearBit (b : BitVec 8) (i : Nat) : BitVec 8 := b &&& ~~~(1#8 <<< i)

/-- The bit of the least number that is set. -/
def least (b : BitVec 8) : Option Nat := (List.range 8).find? fun i => b.getLsbD i

namespace Chip

/-- A request comes in. -/
def request (c : Chip) (i : Nat) : Chip := { c with irr := setBit c.irr i }

/-- The request that is passed on. -/
def pending (c : Chip) : Option Nat :=
  (least (c.irr &&& ~~~c.imr)).filter fun i => (List.range (i + 1)).all fun j => !c.isr.getLsbD j

/-- The processor takes the interrupt of a line; with an automatic end of interrupt it is not in service. -/
def take (c : Chip) (i : Nat) : Chip :=
  { c with
    irr := clearBit c.irr i
    isr := if c.mode.getLsbD 1 then c.isr else setBit c.isr i }

/-- The non-specific end of interrupt. -/
def eoi (c : Chip) : Chip :=
  match least c.isr with
  | some i => { c with isr := clearBit c.isr i }
  | none => c

/-- A write to the command port.  The first initialisation word resets requests and mask. -/
def command (c : Chip) (v : BitVec 8) : Chip :=
  if v.getLsbD 4 then { c with irr := 0, imr := 0, mode := 0, icw1 := v, stage := .icw2 }
  else if v = 0x20 then c.eoi
  else c

/-- What comes behind the second and the third initialisation word. -/
def stageFour (c : Chip) : Stage := if c.icw1.getLsbD 0 then .icw4 else .ready
def stageThree (c : Chip) : Stage := if c.icw1.getLsbD 1 then c.stageFour else .icw3

/-- A write to the data port. -/
def data (c : Chip) (v : BitVec 8) : Chip :=
  match c.stage with
  | .icw2 => { c with base := v &&& 0xF8, stage := c.stageThree }
  | .icw3 => { c with cascade := v, stage := c.stageFour }
  | .icw4 => { c with mode := v, stage := .ready }
  | .ready => { c with imr := v }

end Chip

structure Pair where
  master : Chip
  slave : Chip
  deriving DecidableEq

namespace Pair

/-- A write to one of the ports of the two. -/
def outb (p : Pair) (port : BitVec 16) (v : BitVec 8) : Pair :=
  if port = 0x20 then { p with master := p.master.command v }
  else if port = 0x21 then { p with master := p.master.data v }
  else if port = 0xA0 then { p with slave := p.slave.command v }
  else if port = 0xA1 then { p with slave := p.slave.data v }
  else p

/-- Writes, one after another. -/
def outs (p : Pair) (l : List (BitVec 16 × BitVec 8)) : Pair := l.foldl (fun p w => p.outb w.1 w.2) p

/-- An edge on one of the lines 0 to 15; there is no device on line 2. -/
def raise (p : Pair) (line : Nat) : Pair :=
  if line < 8 then { p with master := p.master.request line } else { p with slave := p.slave.request (line - 8) }

/-- The requests as the master sees them. -/
def input (p : Pair) : Chip :=
  { p.master with irr := if p.slave.pending.isSome then setBit p.master.irr 2 else clearBit p.master.irr 2 }

/-- The processor asks for the vector. -/
def inta (p : Pair) : Option (BitVec 8 × Pair) :=
  p.input.pending.bind fun i =>
    if i = 2 then
      p.slave.pending.map fun j => (p.slave.base + BitVec.ofNat 8 j, ⟨p.master.take 2, p.slave.take j⟩)
    else some (p.master.base + BitVec.ofNat 8 i, { p with master := p.master.take i })

/-- A request on a line waits. -/
def latched (p : Pair) (line : Nat) : Bool :=
  if line < 8 then p.master.irr.getLsbD line else p.slave.irr.getLsbD (line - 8)

/-- The place of a line in the order of priority. -/
def rank (line : Nat) : Nat := if line < 8 then 8 * line else 8 + line

end Pair

/-! ## Bits -/

variable {b : BitVec 8} {i j : Nat}

theorem getLsbD_one_shiftLeft (hj : j < 8) : (1#8 <<< i).getLsbD j = decide (j = i) := by
  simp only [BitVec.getLsbD_shiftLeft, hj, decide_true, Bool.true_and, BitVec.getLsbD_one]
  by_cases h : j < i
  · simp [h, Nat.ne_of_lt h]
  · by_cases he : j = i
    · simp [he]
    · have : j - i ≠ 0 := by omega
      simp [h, he, this]

theorem getLsbD_setBit (b : BitVec 8) (hi : i < 8) (j : Nat) :
    (setBit b i).getLsbD j = (b.getLsbD j || decide (j = i)) := by
  unfold setBit
  rw [BitVec.getLsbD_or]
  by_cases hj : j < 8
  · rw [getLsbD_one_shiftLeft hj]
  · rw [BitVec.getLsbD_of_ge _ _ (Nat.le_of_not_lt hj), BitVec.getLsbD_of_ge _ _ (Nat.le_of_not_lt hj)]
    simp only [Bool.false_or]
    exact (decide_eq_false (by omega)).symm

theorem getLsbD_clearBit (b : BitVec 8) (i j : Nat) :
    (clearBit b i).getLsbD j = (b.getLsbD j && decide (j ≠ i)) := by
  unfold clearBit
  by_cases hj : j < 8
  · rw [BitVec.getLsbD_and, BitVec.getLsbD_not, getLsbD_one_shiftLeft hj]
    simp [hj]
  · rw [BitVec.getLsbD_of_ge _ _ (Nat.le_of_not_lt hj), BitVec.getLsbD_of_ge _ _ (Nat.le_of_not_lt hj)]
    rfl

theorem clearBit_setBit_zero (hi : i < 8) : clearBit (setBit 0 i) i = 0 :=
  BitVec.eq_of_getLsbD_eq fun j _ => by
    rw [getLsbD_clearBit, getLsbD_setBit 0 hi]
    by_cases h : j = i <;> simp [h]

theorem least_eq_some : least b = some i ↔ b.getLsbD i = true ∧ ∀ j, j < i → b.getLsbD j = false := by
  unfold least
  rw [List.find?_range_eq_some]
  simp only [List.mem_range, Bool.not_eq_true']
  constructor
  · rintro ⟨hb, -, hmin⟩
    exact ⟨hb, hmin⟩
  · rintro ⟨hb, hmin⟩
    exact ⟨hb, BitVec.lt_of_getLsbD hb, hmin⟩

theorem least_eq_none : least b = none ↔ b = 0 := by
  unfold least
  rw [List.find?_range_eq_none]
  constructor
  · exact fun h => BitVec.eq_of_getLsbD_eq fun j hj => by simpa using h j hj
  · rintro rfl j -
    simp

theorem least_setBit_zero (hi : i < 8) : least (setBit 0 i) = some i :=
  least_eq_some.2 ⟨by rw [getLsbD_setBit 0 hi]; simp, fun j hj => by rw [getLsbD_setBit 0 hi]; simp; omega⟩

/-! ## One controller -/

namespace Chip

variable {c : Chip}

/-- Nothing is masked, nothing is in service, and what the processor takes is in service until it is ended. -/
structure Idle (c : Chip) : Prop where
  unmasked : c.imr = 0
  served : c.isr = 0
  normal : c.mode.getLsbD 1 = false

theorem Idle.pending (h : c.Idle) : c.pending = least c.irr := by
  unfold Chip.pending
  rw [h.unmasked, h.served, show ~~~(0 : BitVec 8) = BitVec.allOnes 8 from rfl, BitVec.and_allOnes]
  cases least c.irr with
  | none => rfl
  | some i => simp

/-- **An initialisation** with four words for a controller in cascade, and the mask behind it. -/
theorem initialised {v base cascade mode mask : BitVec 8} (h4 : v.getLsbD 4 = true) (h1 : v.getLsbD 1 = false)
    (h0 : v.getLsbD 0 = true) (c : Chip) : ((((c.command v).data base).data cascade).data mode).data mask =
      ⟨0, c.isr, mask, v, base &&& 0xF8, cascade, mode, .ready⟩ := by
  have hcommand : c.command v = ⟨0, c.isr, 0, v, c.base, c.cascade, 0, .icw2⟩ := by
    unfold command
    rw [if_pos h4]
  rw [hcommand]
  simp only [data, stageThree, stageFour, h1, h0, Bool.false_eq_true, ↓reduceIte]

theorem Idle.request (h : c.Idle) (i : Nat) : (c.request i).Idle := ⟨h.unmasked, h.served, h.normal⟩

theorem Idle.take_isr (h : c.Idle) (i : Nat) : (c.take i).isr = setBit 0 i := by
  unfold take
  simp only [h.normal, h.served, Bool.false_eq_true, ↓reduceIte]

/-- **What was taken and is ended** is a request less. -/
theorem Idle.take_eoi (h : c.Idle) (hi : i < 8) :
    (c.take i).command 0x20 = { c with irr := clearBit c.irr i } := by
  have hisr := h.take_isr i
  unfold command
  rw [if_neg (by decide), if_pos rfl]
  unfold eoi
  rw [hisr, least_setBit_zero hi]
  simp only [take, clearBit_setBit_zero hi, h.served]

/-- **With line 0 in service nothing is passed on.** -/
theorem pending_of_served_zero (h : c.isr.getLsbD 0 = true) : c.pending = none := by
  unfold pending
  cases hl : least (c.irr &&& ~~~c.imr) with
  | none => rfl
  | some i =>
    simp only [Option.filter_some, List.all_eq_true, List.mem_range, ite_eq_right_iff, reduceCtorEq, imp_false]
    intro hall
    have h0 := hall 0 (Nat.succ_pos i)
    rw [h] at h0
    cases h0

end Chip

/-! ## The two in cascade -/

namespace Pair

variable {p : Pair} {line : Nat}

structure Idle (p : Pair) : Prop where
  master : p.master.Idle
  slave : p.slave.Idle

/-- The lines of devices. -/
def IsLine (line : Nat) : Prop := line < 16 ∧ line ≠ 2

/-- A line with a request, and none before it in the order of priority. -/
structure First (p : Pair) (line : Nat) : Prop where
  isLine : IsLine line
  latched : p.latched line = true
  least : ∀ j, IsLine j → p.latched j = true → rank line ≤ rank j

/-- The vector of a line. -/
def vector (p : Pair) (line : Nat) : BitVec 8 :=
  if line < 8 then p.master.base + BitVec.ofNat 8 line else p.slave.base + BitVec.ofNat 8 (line - 8)

/-- The processor has taken the interrupt of a line. -/
def taken (p : Pair) (line : Nat) : Pair :=
  if line < 8 then { p with master := p.master.take line } else ⟨p.master.take 2, p.slave.take (line - 8)⟩

/-- What ends the interrupt of a line. -/
def ends (line : Nat) : List (BitVec 16 × BitVec 8) := (if 8 ≤ line then [(0xA0, 0x20)] else []) ++ [(0x20, 0x20)]

theorem rank_inj {i j : Nat} (hi : IsLine i) (hj : IsLine j) (h : rank i = rank j) : i = j := by
  obtain ⟨hi16, hi2⟩ := hi
  obtain ⟨hj16, hj2⟩ := hj
  unfold rank at h
  split_ifs at h <;> omega

theorem First.unique {i j : Nat} (hi : p.First i) (hj : p.First j) : i = j :=
  rank_inj hi.isLine hj.isLine
    (Nat.le_antisymm (hi.least j hj.isLine hj.latched) (hj.least i hi.isLine hi.latched))

theorem input_irr (h : p.Idle) (j : Nat) :
    p.input.irr.getLsbD j = if j = 2 then (least p.slave.irr).isSome else p.master.irr.getLsbD j := by
  unfold input
  rw [h.slave.pending]
  cases (least p.slave.irr).isSome with
  | false =>
    simp only [Bool.false_eq_true, ↓reduceIte, getLsbD_clearBit]
    split <;> simp [*]
  | true =>
    simp only [↓reduceIte]
    rw [getLsbD_setBit _ (by decide)]
    split <;> simp [*]

theorem Idle.input (h : p.Idle) : p.input.Idle := ⟨h.master.unmasked, h.master.served, h.master.normal⟩

theorem latched_slave {j : Nat} (hj : ¬ j < 8) (h : p.latched j = true) :
    ∃ i, least p.slave.irr = some i ∧ i + 8 ≤ j := by
  unfold latched at h
  rw [if_neg hj] at h
  cases hl : least p.slave.irr with
  | none =>
    rw [least_eq_none.1 hl] at h
    simp at h
  | some i =>
    refine ⟨i, rfl, ?_⟩
    rcases Nat.lt_or_ge (j - 8) i with hlt | hge
    · rw [(least_eq_some.1 hl).2 _ hlt] at h
      cases h
    · omega

/-- **What the processor is given** is the first line that waits. -/
theorem Idle.inta_some (h : p.Idle) {v : BitVec 8} {q : Pair} (hv : p.inta = some (v, q)) :
    ∃ line, p.First line ∧ v = p.vector line ∧ q = p.taken line := by
  unfold inta at hv
  rw [h.input.pending, Option.bind_eq_some_iff] at hv
  obtain ⟨i, hi, hv⟩ := hv
  obtain ⟨hib, himin⟩ := least_eq_some.1 hi
  rw [input_irr h] at hib
  by_cases h2 : i = 2
  · subst h2
    rw [if_pos rfl, h.slave.pending] at hv
    obtain ⟨j, hj, hv⟩ := Option.map_eq_some_iff.1 hv
    obtain ⟨rfl, rfl⟩ := Prod.mk.inj hv
    have hjb := least_eq_some.1 hj
    have hj8 : j < 8 := BitVec.lt_of_getLsbD hjb.1
    have hlt : ¬ j + 8 < 8 := Nat.not_lt.2 (Nat.le_add_left 8 j)
    refine ⟨j + 8, ⟨⟨by omega, by omega⟩, ?_, fun k hk hkl => ?_⟩, ?_, ?_⟩
    · rw [latched, if_neg hlt, Nat.add_sub_cancel]
      exact hjb.1
    · rw [rank, if_neg hlt]
      unfold rank
      by_cases hk8 : k < 8
      · rw [if_pos hk8]
        -- the lines 0 and 1 are before the slave
        have hk2 : ¬ k < 2 := fun hlt2 => by
          have := himin k hlt2
          rw [input_irr h, if_neg hk.2] at this
          rw [latched, if_pos hk8, this] at hkl
          cases hkl
        have := hk.2
        omega
      · rw [if_neg hk8]
        obtain ⟨j', hj', hle⟩ := latched_slave hk8 hkl
        obtain rfl := Option.some.inj (hj.symm.trans hj')
        omega
    · rw [vector, if_neg hlt, Nat.add_sub_cancel]
    · rw [taken, if_neg hlt, Nat.add_sub_cancel]
  · rw [if_neg h2] at hv hib
    obtain ⟨rfl, rfl⟩ := Prod.mk.inj (Option.some.inj hv)
    have hi8 : i < 8 := BitVec.lt_of_getLsbD hib
    refine ⟨i, ⟨⟨by omega, h2⟩, ?_, fun k hk hkl => ?_⟩, ?_, ?_⟩
    · rw [latched, if_pos hi8]
      exact hib
    · rw [rank, if_pos hi8]
      unfold rank
      by_cases hk8 : k < 8
      · rw [if_pos hk8]
        refine Nat.mul_le_mul_left 8 (Nat.le_of_not_lt fun hlt => ?_)
        have := himin k hlt
        rw [input_irr h, if_neg hk.2] at this
        rw [latched, if_pos hk8, this] at hkl
        cases hkl
      · rw [if_neg hk8]
        obtain ⟨j, hj, -⟩ := latched_slave hk8 hkl
        -- the slave asks on line 2, so that the line is 0 or 1
        have : i < 2 := by
          rcases Nat.lt_or_ge 2 i with hlt | hge
          · have h2b := himin 2 hlt
            rw [input_irr h, if_pos rfl, hj] at h2b
            cases h2b
          · omega
        omega
    · rw [vector, if_pos hi8]
    · rw [taken, if_pos hi8]

/-- **Nothing for the processor**: no line waits. -/
theorem Idle.inta_none (h : p.Idle) (hn : p.inta = none) : ∀ j, IsLine j → p.latched j = false := by
  intro j hj
  unfold inta at hn
  rw [h.input.pending, h.slave.pending] at hn
  cases hl : least p.input.irr with
  | none =>
    have hz := least_eq_none.1 hl
    have hbit : ∀ k, p.input.irr.getLsbD k = false := fun k => by rw [hz]; simp
    rw [Bool.eq_false_iff]
    intro hjl
    by_cases hj8 : j < 8
    · have := hbit j
      rw [input_irr h, if_neg hj.2] at this
      rw [latched, if_pos hj8, this] at hjl
      cases hjl
    · obtain ⟨i, hi, -⟩ := latched_slave hj8 hjl
      have := hbit 2
      rw [input_irr h, if_pos rfl, hi] at this
      cases this
  | some i =>
    rw [hl, Option.bind_some] at hn
    split at hn
    · rename_i h2
      have hb := (least_eq_some.1 hl).1
      rw [h2, input_irr h, if_pos rfl, Option.isSome_iff_ne_none] at hb
      exact absurd (Option.map_eq_none_iff.1 hn) hb
    · cases hn

theorem Idle.inta_first (h : p.Idle) (hf : p.First line) : p.inta = some (p.vector line, p.taken line) := by
  cases hv : p.inta with
  | none =>
    have := h.inta_none hv line hf.isLine
    rw [hf.latched] at this
    cases this
  | some r =>
    obtain ⟨k, hk, hvk, hqk⟩ := h.inta_some (v := r.1) (q := r.2) hv
    obtain rfl := hf.unique hk
    rw [← hvk, ← hqk]

/-- Where a line waits, one is the first. -/
theorem Idle.exists_first (h : p.Idle) {j : Nat} (hj : IsLine j) (hl : p.latched j = true) : ∃ line, p.First line := by
  cases hv : p.inta with
  | none =>
    rw [h.inta_none hv j hj] at hl
    cases hl
  | some r =>
    obtain ⟨line, hf, -⟩ := h.inta_some (v := r.1) (q := r.2) hv
    exact ⟨line, hf⟩

/-- The interrupt of a line taken, and ended. -/
def ended (p : Pair) (line : Nat) : Pair := (p.taken line).outs (ends line)

theorem Idle.ended_eq (h : p.Idle) (hline : line < 16) :
    p.ended line = if line < 8 then { p with master := { p.master with irr := clearBit p.master.irr line } }
      else ⟨{ p.master with irr := clearBit p.master.irr 2 },
        { p.slave with irr := clearBit p.slave.irr (line - 8) }⟩ := by
  unfold ended taken ends
  by_cases hl : line < 8
  · rw [if_pos hl, if_pos hl, if_neg (Nat.not_le.2 hl)]
    show outb _ 0x20 0x20 = _
    rw [outb, if_pos rfl, h.master.take_eoi hl]
  · rw [if_neg hl, if_neg hl, if_pos (Nat.le_of_not_lt hl)]
    show outb (outb _ 0xA0 0x20) 0x20 0x20 = _
    rw [outb, if_pos rfl, outb, if_neg (by decide), if_neg (by decide), if_pos rfl, h.master.take_eoi (by decide),
      h.slave.take_eoi (by omega)]

theorem Idle.ended (h : p.Idle) (hline : line < 16) : (p.ended line).Idle := by
  rw [h.ended_eq hline]
  split
  · exact ⟨⟨h.master.unmasked, h.master.served, h.master.normal⟩, h.slave⟩
  · exact ⟨⟨h.master.unmasked, h.master.served, h.master.normal⟩,
      ⟨h.slave.unmasked, h.slave.served, h.slave.normal⟩⟩

/-- **An interrupt ended** has its own request taken away, and no other. -/
theorem Idle.latched_ended (h : p.Idle) (hline : line < 16) {j : Nat} (hj : IsLine j) :
    (p.ended line).latched j = (p.latched j && decide (j ≠ line)) := by
  rw [h.ended_eq hline]
  unfold latched
  by_cases hl : line < 8 <;> by_cases hj8 : j < 8 <;> simp only [hl, hj8, ↓reduceIte, getLsbD_clearBit]
  · simp [show j ≠ line by omega]
  · simp [hj.2, show j ≠ line by omega]
  · exact congrArg _ (decide_eq_decide.2 (by omega))

theorem Idle.raise (h : p.Idle) (line : Nat) : (p.raise line).Idle := by
  unfold Pair.raise
  split
  · exact ⟨h.master.request _, h.slave⟩
  · exact ⟨h.master, h.slave.request _⟩

theorem latched_raise (p : Pair) (hline : line < 16) (j : Nat) :
    (p.raise line).latched j = (p.latched j || decide (j = line)) := by
  unfold Pair.raise latched Chip.request
  by_cases hl : line < 8 <;> by_cases hj8 : j < 8 <;> simp only [hl, hj8, ↓reduceIte]
  · exact getLsbD_setBit _ hl j
  · simp [show j ≠ line by omega]
  · simp [show j ≠ line by omega]
  · rw [getLsbD_setBit _ (by omega)]
    exact congrArg _ (decide_eq_decide.2 (by omega))

theorem inta_of_served_zero (h : p.master.isr.getLsbD 0 = true) : p.inta = none := by
  unfold inta
  rw [show p.input.pending = none from Chip.pending_of_served_zero h]
  rfl

theorem raise_master_isr (p : Pair) (line : Nat) : (p.raise line).master.isr = p.master.isr := by
  unfold Pair.raise
  split <;> rfl

end Pair
end Pic8259
