import Loris.Interrupts
import Loris.Pic8259
/-!
# InterruptControllers — `RemapPIC`, and `irq_handler` between the controllers and the processor

The controllers as `RemapPIC` leaves them, devices that raise their lines at any time and keep them up until they are
served, and a processor that takes what the controllers pass on.  What `irq_handler` sends ends the interrupt at the
controllers.  While every timer interrupt finds `current_task` null no request is lost, none is served twice, and the
first line that waits is served first (`requests_served`).  The first timer interrupt that finds a task is the last
interrupt of any line (`last_interrupt`).
-/
namespace Loris

open ByteMem Runs Pic8259

/-- `RemapPIC`: what is written to which port. -/
def remapPIC : List (BitVec 16 × Byte) :=
  [(0x20, 0x11), (0xA0, 0x11), (0x21, 0x20), (0xA1, 0x28), (0x21, 0x04), (0xA1, 0x02), (0x21, 0x01), (0xA1, 0x01),
    (0x21, 0x0), (0xA1, 0x0)]

/-- The vector of a line, and the number with which `irq_handler` sees it. -/
def irqOf (line : Nat) : U32 := BitVec.ofNat 32 (32 + line)

/-- The controllers, and the machine with what went between it and them. -/
structure Board where
  pics : Pair
  irq : IrqState

inductive BoardEvent where
  /-- A device raises its line, and keeps it up until the processor has taken the interrupt. -/
  | raise (line : Nat)
  /-- The machine makes a step.  An interrupt is dispatched when the processor has taken it. -/
  | irq (e : IrqEvent)

namespace Board

/-- What the machine's step sent reaches the controllers `p`. -/
def wrote (b : Board) (p : Pair) (s : IrqState) : Board := ⟨p.outs (s.sent.drop b.irq.sent.length), s⟩

/-- The processor takes an interrupt, if it may, and its vector is `int_no`. -/
def takes (b : Board) (int_no : U32) : Option Pair :=
  if b.irq.machine.interrupts then b.pics.inta.bind fun r => if r.1.setWidth 32 = int_no then some r.2 else none
  else none

def step (others : Nat → Option (Machine → Machine)) (resume : U32) (b : Board) : BoardEvent → Option Board
  | .raise line => if line < 16 ∧ line ≠ 2 then some { b with pics := b.pics.raise line } else none
  | .irq (.interrupt n) => (b.takes n).bind fun p => (b.irq.step others resume (.interrupt n)).map (b.wrote p)
  | .irq e => (b.irq.step others resume e).map (b.wrote b.pics)

def Step (others : Nat → Option (Machine → Machine)) (resume : U32) (b : Board) (e : BoardEvent) (t : Board) : Prop :=
  b.step others resume e = some t

/-- A timer interrupt finds no current task. -/
def TickIdle (b : Board) (e : BoardEvent) : Prop := e = .irq (.interrupt 32) → b.irq.machine.current_task = 0

/-- Behind `RemapPIC`, with a machine that has seen no interrupt. -/
def start (p : Pair) (m : Machine) : Board := ⟨p.outs remapPIC, .start m⟩

/-- The controllers as `RemapPIC` leaves them, but for requests. -/
structure Serving (p : Pair) : Prop where
  idle : p.Idle
  master : p.master.base = 0x20
  slave : p.slave.base = 0x28

variable {others : Nat → Option (Machine → Machine)} {resume : U32} {b t : Board} {p : Pair} {e : BoardEvent} {n : U32}
  {line : Nat}

theorem outs_remapPIC (p : Pair) : p.outs remapPIC =
    ⟨⟨0, p.master.isr, 0, 0x11, 0x20, 0x04, 0x01, .ready⟩, ⟨0, p.slave.isr, 0, 0x11, 0x28, 0x02, 0x01, .ready⟩⟩ := by
  have hm := @Chip.initialised 0x11 0x20 0x04 0x01 0x0 (by decide) (by decide) (by decide) p.master
  have hs := @Chip.initialised 0x11 0x28 0x02 0x01 0x0 (by decide) (by decide) (by decide) p.slave
  simp only [remapPIC, Pair.outs, Pair.outb, List.foldl_cons, List.foldl_nil, BitVec.reduceEq, ↓reduceIte]
  rw [hm, hs]
  rfl

theorem serving_remapPIC (hm : p.master.isr = 0) (hs : p.slave.isr = 0) : Serving (p.outs remapPIC) := by
  rw [outs_remapPIC]
  have hmode : (0x01 : BitVec 8).getLsbD 1 = false := by decide
  exact ⟨⟨⟨rfl, hm, hmode⟩, ⟨rfl, hs, hmode⟩⟩, rfl, rfl⟩

theorem latched_remapPIC (p : Pair) (line : Nat) : (p.outs remapPIC).latched line = false := by
  rw [outs_remapPIC, Pair.latched]
  split <;> exact BitVec.getLsbD_zero

theorem Serving.raise (h : Serving p) (line : Nat) : Serving (p.raise line) := by
  refine ⟨h.idle.raise line, ?_, ?_⟩
  · rw [← h.master]
    unfold Pair.raise
    split <;> rfl
  · rw [← h.slave]
    unfold Pair.raise
    split <;> rfl

theorem Serving.ended (h : Serving p) (hl : line < 16) : Serving (p.ended line) := by
  refine ⟨h.idle.ended hl, ?_, ?_⟩
  · rw [h.idle.ended_eq hl, ← h.master]
    split <;> rfl
  · rw [h.idle.ended_eq hl, ← h.slave]
    split <;> rfl

/-- **Line by line from vector 32 on**, which no exception has. -/
theorem Serving.vector (h : Serving p) (hl : line < 16) : (p.vector line).setWidth 32 = irqOf line := by
  have h32 : (32 : BitVec 8).toNat = 32 := rfl
  have h40 : (40 : BitVec 8).toNat = 40 := rfl
  unfold Pair.vector irqOf
  apply BitVec.eq_of_toNat_eq
  split <;> simp only [h.master, h.slave, BitVec.toNat_setWidth, BitVec.toNat_add, BitVec.toNat_ofNat] <;> omega

theorem irqOf_inj {i j : Nat} (hi : i < 16) (hj : j < 16) (h : irqOf i = irqOf j) : i = j := by
  have := congrArg BitVec.toNat h
  simp only [irqOf, BitVec.toNat_ofNat] at this
  omega

theorem toNat_irqOf (hl : line < 16) : (irqOf line).toNat = 32 + line := by
  rw [irqOf, BitVec.toNat_ofNat]
  omega

theorem irqOf_range (hl : line < 16) : 32 ≤ irqOf line ∧ irqOf line ≤ 47 := by
  simp only [BitVec.le_def, toNat_irqOf hl]
  exact ⟨Nat.le_add_right 32 line, show 32 + line ≤ 47 by omega⟩

/-- What `irq_handler` sends ends the interrupt of its line. -/
theorem acknowledge_sent (s : IrqState) (hl : line < 16) :
    (s.acknowledge (irqOf line)).sent = s.sent ++ Pair.ends line := by
  have h40 : irqOf line ≥ 40 ↔ 8 ≤ line := by
    rw [ge_iff_le, BitVec.le_def, toNat_irqOf hl]
    exact ⟨fun h => by have : 40 ≤ 32 + line := h; omega, fun h => show 40 ≤ 32 + line by omega⟩
  unfold IrqState.acknowledge IrqState.outb Pair.ends
  simp only [h40]
  split <;> simp

theorem step_raise : Step others resume b (.raise line) t ↔
    (line < 16 ∧ line ≠ 2) ∧ t = { b with pics := b.pics.raise line } := by
  simp only [Step, step, Option.ite_none_right_eq_some, Option.some.injEq]
  exact and_congr_right fun _ => eq_comm

/-- **An interrupt**, at the controllers that serve. -/
theorem Serving.takes (h : Serving b.pics) :
    b.takes n = some p ↔ b.irq.machine.interrupts = true ∧ ∃ line, b.pics.First line ∧ n = irqOf line ∧
      p = b.pics.taken line := by
  unfold Board.takes
  rw [Option.ite_none_right_eq_some, Option.bind_eq_some_iff]
  refine and_congr_right fun _ => ?_
  simp only [Option.ite_none_right_eq_some, Option.some.injEq]
  constructor
  · rintro ⟨⟨v, q⟩, hv, hn, rfl⟩
    obtain ⟨line, hf, rfl, rfl⟩ := h.idle.inta_some hv
    exact ⟨line, hf, hn.symm.trans (h.vector hf.isLine.1), rfl⟩
  · rintro ⟨line, hf, rfl, rfl⟩
    exact ⟨_, h.idle.inta_first hf, h.vector hf.isLine.1, rfl⟩

theorem step_interrupt : Step others resume b (.irq (.interrupt n)) t ↔
    ∃ p, b.takes n = some p ∧ (32 ≤ n ∧ n ≤ 47) ∧ t = b.wrote p (b.irq.irqHandler others resume n) := by
  simp only [Step, step, Option.bind_eq_some_iff, Option.map_eq_some_iff, IrqState.step, Option.ite_none_right_eq_some,
    Option.some.injEq]
  constructor
  · rintro ⟨p, hp, s, ⟨hn, rfl⟩, rfl⟩
    exact ⟨p, hp, hn, rfl⟩
  · rintro ⟨p, hp, hn, rfl⟩
    exact ⟨p, hp, _, ⟨hn, rfl⟩, rfl⟩

/-- **Enabled**: exactly the first line that waits, while the processor takes interrupts. -/
theorem Serving.enabled (h : Serving b.pics) : (∃ t, Step others resume b (.irq (.interrupt n)) t) ↔
    b.irq.machine.interrupts = true ∧ ∃ line, b.pics.First line ∧ n = irqOf line := by
  simp only [step_interrupt, h.takes]
  constructor
  · rintro ⟨-, p, ⟨hif, line, hf, hn, -⟩, -⟩
    exact ⟨hif, line, hf, hn⟩
  · rintro ⟨hif, line, hf, rfl⟩
    exact ⟨_, _, ⟨hif, line, hf, rfl, rfl⟩, irqOf_range hf.isLine.1, rfl⟩

theorem wrote_pics {s : IrqState} (h : s.sent = b.irq.sent) : (b.wrote b.pics s).pics = b.pics := by
  unfold wrote
  rw [h, List.drop_length]
  rfl

/-- A step of the machine other than an interrupt leaves the controllers as they are. -/
theorem pics_machine {e : IrqEvent} (he : ∀ n, e ≠ .interrupt n) (h : Step others resume b (.irq e) t) :
    t.pics = b.pics := by
  cases e with
  | interrupt n => exact absurd rfl (he n)
  | runs m =>
    simp only [Step, step, Option.map_eq_some_iff] at h
    obtain ⟨s, hs, rfl⟩ := h
    obtain ⟨-, rfl⟩ := IrqState.step_runs.1 hs
    exact wrote_pics rfl
  | resumes =>
    simp only [Step, step, Option.map_eq_some_iff] at h
    obtain ⟨s, hs, rfl⟩ := h
    obtain ⟨-, rfl⟩ := IrqState.step_resumes.1 hs
    rw [Machine.afterReadEip_eq]
    exact wrote_pics rfl

/-- **An interrupt whose handler returns** is ended. -/
theorem Serving.interrupt (h : Serving b.pics) (hg : b.TickIdle (.irq (.interrupt n)))
    (hs : Step others resume b (.irq (.interrupt n)) t) :
    ∃ line, b.pics.First line ∧ n = irqOf line ∧ t.pics = b.pics.ended line := by
  obtain ⟨p, hp, -, rfl⟩ := step_interrupt.1 hs
  obtain ⟨-, line, hf, rfl, rfl⟩ := h.takes.1 hp
  refine ⟨line, hf, rfl, ?_⟩
  rcases @IrqState.irqHandler_cases others resume (irqOf line) b.irq with
    ⟨⟨m, hm⟩, -⟩ | ⟨hcur, hn, -⟩
  · show (b.pics.taken line).outs _ = _
    rw [hm, acknowledge_sent _ hf.isLine.1, List.drop_left]
    rfl
  · exact absurd (hg (by rw [hn])) hcur

/-- **A timer interrupt that finds a task** stays in service. -/
theorem Serving.preempted (h : Serving b.pics) (hcur : b.irq.machine.current_task ≠ 0)
    (hs : Step others resume b (.irq (.interrupt 32)) t) : t.pics.master.isr.getLsbD 0 = true := by
  obtain ⟨p, hp, -, rfl⟩ := step_interrupt.1 hs
  obtain ⟨-, line, hf, hn, rfl⟩ := h.takes.1 hp
  obtain rfl : 0 = line := irqOf_inj (by decide) hf.isLine.1 hn
  rcases @IrqState.irqHandler_cases others resume 32 b.irq with
    ⟨-, h0⟩ | ⟨-, -, hsent, -⟩
  · exact absurd (h0 rfl) hcur
  · show (Pair.outs _ _).master.isr.getLsbD 0 = true
    rw [hsent, List.drop_length]
    show (b.pics.master.take 0).isr.getLsbD 0 = true
    rw [h.idle.master.take_isr]
    decide

theorem Serving.step (h : Serving b.pics) (hg : b.TickIdle e) (hs : Step others resume b e t) : Serving t.pics := by
  cases e with
  | raise line =>
    obtain ⟨-, rfl⟩ := step_raise.1 hs
    exact h.raise line
  | irq e =>
    cases e with
    | interrupt n =>
      obtain ⟨line, hf, -, ht⟩ := h.interrupt hg hs
      rw [ht]
      exact h.ended hf.isLine.1
    | runs m => rw [pics_machine (by simp) hs]; exact h
    | resumes => rw [pics_machine (by simp) hs]; exact h

/-- **One step and one line**: a request makes it wait, and its interrupt makes it not. -/
theorem Serving.latched_step (h : Serving b.pics) (hg : b.TickIdle e) (hs : Step others resume b e t)
    (hl : Pair.IsLine line) : t.pics.latched line = true ↔
      e = .raise line ∨ b.pics.latched line = true ∧ e ≠ .irq (.interrupt (irqOf line)) := by
  cases e with
  | raise k =>
    obtain ⟨hk, rfl⟩ := step_raise.1 hs
    rw [Pair.latched_raise _ hk.1, Bool.or_eq_true, decide_eq_true_eq, or_comm, BoardEvent.raise.injEq,
      and_iff_left (by simp)]
    exact or_congr_left eq_comm
  | irq e =>
    cases e with
    | interrupt n =>
      obtain ⟨k, hf, rfl, ht⟩ := h.interrupt hg hs
      rw [ht, h.idle.latched_ended hf.isLine.1 hl, Bool.and_eq_true, decide_eq_true_eq]
      simp only [reduceCtorEq, false_or, ne_eq, BoardEvent.irq.injEq, IrqEvent.interrupt.injEq]
      exact and_congr_right fun _ => not_congr
        ⟨fun hlk => by rw [hlk], fun hlk => (irqOf_inj hf.isLine.1 hl.1 hlk).symm⟩
    | runs m => simp [pics_machine (by simp) hs]
    | resumes => simp [pics_machine (by simp) hs]

/-- The last that happened to a line in a run is a request. -/
def Waits (l : List BoardEvent) (line : Nat) : Prop :=
  ∃ l₁ l₂, l = l₁ ++ .raise line :: l₂ ∧ .irq (.interrupt (irqOf line)) ∉ l₂

theorem waits_cons {l : List BoardEvent} : Waits (e :: l) line ↔
    Waits l line ∨ e = .raise line ∧ .irq (.interrupt (irqOf line)) ∉ l := by
  constructor
  · rintro ⟨l₁, l₂, hl, hn⟩
    cases l₁ with
    | nil =>
      obtain ⟨rfl, rfl⟩ := List.cons.inj hl
      exact .inr ⟨rfl, hn⟩
    | cons a l₁ => exact .inl ⟨l₁, l₂, (List.cons.inj hl).2, hn⟩
  · rintro (⟨l₁, l₂, rfl, hn⟩ | ⟨rfl, hn⟩)
    · exact ⟨e :: l₁, l₂, rfl, hn⟩
    · exact ⟨[], l, rfl, hn⟩

/-- **A run and one line**: behind it a line waits when a request came last, or nothing came where it waited. -/
theorem Serving.latched_run : ∀ {l : List BoardEvent} {b : Board}, Serving b.pics →
    Guarded (Step others resume) TickIdle b l → Reaches (Step others resume) b l t → Serving t.pics ∧
      ∀ line, Pair.IsLine line → (t.pics.latched line = true ↔
        Waits l line ∨ b.pics.latched line = true ∧ .irq (.interrupt (irqOf line)) ∉ l)
  | [], b, h, _, hr => by
    obtain rfl := hr
    exact ⟨h, fun line _ => by simp [Waits]⟩
  | e :: l, b, h, ⟨hg, hgl⟩, ⟨u, hu, hr⟩ => by
    obtain ⟨ht, ih⟩ := (h.step hg hu).latched_run (hgl u hu) hr
    refine ⟨ht, fun line hl => ?_⟩
    rw [ih line hl, h.latched_step hg hu hl, waits_cons, List.mem_cons, not_or, or_assoc]
    refine or_congr_right ?_
    rw [or_and_right, ne_comm, and_assoc]

/-- **A step with line 0 in service** is no interrupt, and leaves line 0 in service. -/
theorem served_zero_step (h : b.pics.master.isr.getLsbD 0 = true) (hs : Step others resume b e t) :
    (∀ n, e ≠ .irq (.interrupt n)) ∧ t.pics.master.isr.getLsbD 0 = true := by
  have hne : ∀ n, e ≠ .irq (.interrupt n) := by
    rintro n rfl
    obtain ⟨p, hp, -⟩ := step_interrupt.1 hs
    unfold takes at hp
    rw [Pair.inta_of_served_zero h] at hp
    simp at hp
  refine ⟨hne, ?_⟩
  cases e with
  | raise line =>
    obtain ⟨-, rfl⟩ := step_raise.1 hs
    rw [← h]
    exact congrArg (BitVec.getLsbD · 0) (Pair.raise_master_isr _ _)
  | irq e =>
    rw [pics_machine (fun n he => hne n (by rw [he])) hs]
    exact h

theorem served_zero_run : ∀ {l : List BoardEvent} {b : Board}, b.pics.master.isr.getLsbD 0 = true →
    Reaches (Step others resume) b l t → (∀ n, .irq (.interrupt n) ∉ l) ∧ t.pics.master.isr.getLsbD 0 = true
  | [], _, h, hr => ⟨fun _ => List.not_mem_nil, hr ▸ h⟩
  | e :: l, b, h, ⟨u, hu, hr⟩ => by
    obtain ⟨hne, hu0⟩ := served_zero_step h hu
    obtain ⟨hl, ht⟩ := served_zero_run hu0 hr
    refine ⟨fun n => ?_, ht⟩
    rw [List.mem_cons, not_or]
    exact ⟨(hne n).symm, hl n⟩

/-- Either line 0 is in service, or every timer interrupt so far found no task. -/
theorem Serving.run : ∀ {l : List BoardEvent} {b : Board}, Serving b.pics → Reaches (Step others resume) b l t →
    t.pics.master.isr.getLsbD 0 = true ∨ Serving t.pics
  | [], _, h, hr => .inr (hr ▸ h)
  | e :: l, b, h, ⟨u, hu, hr⟩ => by
    by_cases hg : b.TickIdle e
    · exact (h.step hg hu).run hr
    · unfold TickIdle at hg
      rw [Classical.not_imp] at hg
      obtain ⟨rfl, hcur⟩ := hg
      exact .inl (served_zero_run (h.preempted hcur hu) hr).2

end Board

open Board in
/-- **No request is lost, and none is served twice**: while the timer finds no task, the interrupt that the processor is
given is the first line in the order of priority whose last event is a request. -/
theorem requests_served {others : Nat → Option (Machine → Machine)} {resume : U32} {p : Pair} {m : Machine}
    {l : List BoardEvent} {t : Board} (hm : p.master.isr = 0) (hs : p.slave.isr = 0)
    (hr : Reaches (Step others resume) (start p m) l t) (hg : Guarded (Step others resume) TickIdle (start p m) l)
    (n : U32) : (∃ u, Step others resume t (.irq (.interrupt n)) u) ↔ t.irq.machine.interrupts = true ∧
      ∃ line, Pair.IsLine line ∧ n = irqOf line ∧ Waits l line ∧
        ∀ j, Pair.IsLine j → Waits l j → Pair.rank line ≤ Pair.rank j := by
  obtain ⟨ht, hl⟩ := (serving_remapPIC hm hs).latched_run (b := start p m) hg hr
  have hw : ∀ line, Pair.IsLine line → (t.pics.latched line = true ↔ Waits l line) := fun line hline => by
    rw [hl line hline, show (start p m).pics.latched line = false from latched_remapPIC p line]
    simp
  rw [ht.enabled]
  refine and_congr_right fun _ => exists_congr fun line => ?_
  constructor
  · rintro ⟨hf, hn⟩
    exact ⟨hf.isLine, hn, (hw line hf.isLine).1 hf.latched, fun j hj hwj => hf.least j hj ((hw j hj).2 hwj)⟩
  · rintro ⟨hline, hn, hwl, hmin⟩
    exact ⟨⟨hline, (hw line hline).2 hwl, fun j hj hlj => hmin j hj ((hw j hj).1 hlj)⟩, hn⟩

namespace Board

/-- Two controllers that were never programmed. -/
def powerOn : Pair := ⟨⟨0x40, 0, 0xFF, 0, 0, 0, 0, .ready⟩, ⟨0, 0, 0xFF, 0, 0, 0, 0, .ready⟩⟩

/-- The clock and then the keyboard request, and the keyboard is served. -/
def keyFirst : List BoardEvent := [.raise 8, .raise 1, .irq (.interrupt 33)]

theorem reaches_keyFirst : ∃ t, Reaches (Step (fun _ => none) 0x100600) (start powerOn twoTasks.machine) keyFirst t :=
  ⟨_, _, rfl, _, rfl, _, rfl, rfl⟩

end Board

open Board in
theorem clock_served_next : ∃ t, Reaches (Step (fun _ => none) 0x100600) (start powerOn twoTasks.machine) keyFirst t ∧
    ∀ n, (∃ u, Step (fun _ => none) 0x100600 t (.irq (.interrupt n)) u) ↔ t.irq.machine.interrupts = true ∧
      ∃ line, Pair.IsLine line ∧ n = irqOf line ∧ Waits keyFirst line ∧
        ∀ j, Pair.IsLine j → Waits keyFirst j → Pair.rank line ≤ Pair.rank j := by
  obtain ⟨t, hr⟩ := reaches_keyFirst
  have hg : Guarded (Step (fun _ => none) 0x100600) TickIdle (start powerOn twoTasks.machine) keyFirst := by
    refine guarded_iff.2 fun l₁ e l₂ u hl _ he => ?_
    have hmem : e ∈ keyFirst := hl ▸ List.mem_append_right _ List.mem_cons_self
    rw [he] at hmem
    simp [keyFirst] at hmem
  exact ⟨t, hr, requests_served rfl rfl hr hg⟩

open Board in
/-- **The last interrupt**: a timer interrupt that finds a current task is the last interrupt of any line. -/
theorem last_interrupt {others : Nat → Option (Machine → Machine)} {resume : U32} {p : Pair} {m : Machine}
    {l₁ l₂ : List BoardEvent} {u t : Board} (hm : p.master.isr = 0) (hs : p.slave.isr = 0)
    (h₁ : Reaches (Step others resume) (start p m) l₁ u) (hcur : u.irq.machine.current_task ≠ 0)
    (h₂ : Reaches (Step others resume) u (.irq (.interrupt 32) :: l₂) t) : ∀ n, .irq (.interrupt n) ∉ l₂ := by
  rcases (serving_remapPIC hm hs).run (b := start p m) h₁ with h0 | hserving
  · exact absurd List.mem_cons_self ((served_zero_run h0 h₂).1 32)
  · obtain ⟨v, hv, h₂⟩ := h₂
    exact (served_zero_run (hserving.preempted hcur hv) h₂).1

open Board in
theorem key_not_served : ∃ u t, Reaches (Step (fun _ => none) 0x100600) (start powerOn twoTasks.machine) [.raise 0] u ∧
    Reaches (Step (fun _ => none) 0x100600) u (.irq (.interrupt 32) :: [.raise 1]) t ∧
      ∀ n, .irq (.interrupt n) ∉ [BoardEvent.raise 1] := by
  obtain ⟨u, t, h₁, hcur, h₂⟩ : ∃ u t, Reaches (Step (fun _ => none) 0x100600) (start powerOn twoTasks.machine)
      [.raise 0] u ∧ u.irq.machine.current_task ≠ 0 ∧
      Reaches (Step (fun _ => none) 0x100600) u (.irq (.interrupt 32) :: [.raise 1]) t :=
    ⟨_, _, ⟨_, rfl, rfl⟩, by decide, ⟨_, rfl, _, rfl, rfl⟩⟩
  exact ⟨u, t, h₁, h₂, last_interrupt rfl rfl h₁ hcur h₂⟩

end Loris
