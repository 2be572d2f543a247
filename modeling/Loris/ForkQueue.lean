import Loris.HeapRuns
import Loris.RoundRobin
import Loris.Tasking
import Mathlib.Data.List.GetD
/-!
# ForkQueue — `fork`, and the ready queue over runs of forks and switches

`fork` puts the new task at the end of the ready queue; `switch_task` selects the one behind `current_task`, and at the
end the first.  The queue is a ring that grows at its end (`IsRing`), and what holds of such a ring holds of the tasks
(`ready_queue`).
-/
namespace Loris

open ByteMem Runs RoundRobin

/-- A machine, and the next process id. -/
structure TaskState where
  machine : Machine
  next_pid : U32

/-- `sizeof(Task)`. -/
def sizeofTask : Nat := 24

/-- `while (tmp_task->next) tmp_task = tmp_task->next`. -/
def Machine.lastTask (m : Machine) : Nat → U32 → Option U32
  | 0, _ => none
  | n + 1, tmp_task => if (m.tasks tmp_task).next ≠ 0 then m.lastTask n (m.tasks tmp_task).next else some tmp_task

def Machine.cli (m : Machine) : Machine := { m with interrupts := false }

namespace TaskState

/-- The stores to a new task. -/
def create (s : TaskState) (task page_directory : U32) : TaskState :=
  ⟨s.machine.setTask task ⟨s.next_pid, 0, 0, 0, page_directory, 0⟩, s.next_pid + 1⟩

/-- `initialise_tasking`; `task` is what `kmalloc` returns. -/
def initialiseTasking (s : TaskState) (task : U32) : TaskState :=
  let s := s.create task s.machine.current_directory
  ⟨{ s.machine with
      current_task := task
      ready_queue := task
      interrupts := true }, s.next_pid⟩

/-- `tmp_task->next = new_task`. -/
def link (s : TaskState) (tmp_task new_task : U32) : TaskState :=
  ⟨s.machine.setTask tmp_task { s.machine.tasks tmp_task with next := new_task }, s.next_pid⟩

/-- `fork` up to `read_eip`; `directory` and `new_task` are what `clone_directory` and `kmalloc` return. -/
def forkNew (fuel : Nat) (s : TaskState) (directory new_task : U32) : Option TaskState :=
  let s := create ⟨s.machine.cli, s.next_pid⟩ new_task directory
  (s.machine.lastTask fuel s.machine.ready_queue).map fun tmp_task => s.link tmp_task new_task

/-- `fork` from `read_eip` on, with the value it returns. -/
def forkReturn (s : TaskState) (parent_task new_task eip : U32) : U32 × TaskState :=
  if s.machine.current_task = parent_task then
    let m := s.machine.setTask new_task ((s.machine.tasks new_task).save eip s.machine.esp s.machine.ebp)
    ((m.tasks new_task).id, ⟨{ m with interrupts := true }, s.next_pid⟩)
  else (0, s)

/-- `fork`, as the parent runs it; `resume` is the address behind the call of `read_eip`. -/
def fork (resume : U32) (fuel : Nat) (s : TaskState) (directory new_task : U32) : Option (U32 × TaskState) :=
  (s.forkNew fuel directory new_task).map fun t => t.forkReturn s.machine.current_task new_task resume

end TaskState

/-- The tasks, with the tasks created so far and the tasks selected so far, in turn. -/
structure TaskRun where
  state : TaskState
  created : List U32
  selected : List U32

inductive TaskOp where
  | fork (directory new_task : U32)
  | switch

/-- `kmalloc` returned storage of its own for a task. -/
def Fresh (tasks : List U32) (p : U32) : Prop :=
  p ≠ 0 ∧ p.toNat + sizeofTask ≤ 2 ^ 32 ∧ ∀ q ∈ tasks, Apart q.toNat sizeofTask p.toNat sizeofTask

/-- What runs between the calls leaves the tasks alone. -/
def Elsewhere (m m' : Machine) : Prop :=
  m'.tasks = m.tasks ∧ m'.current_task = m.current_task ∧ m'.ready_queue = m.ready_queue

namespace TaskRun

def machine (s : TaskRun) : Machine := s.state.machine

/-- `initialise_tasking` has run. -/
def start (s : TaskState) (p : U32) : TaskRun := ⟨s.initialiseTasking p, [p], []⟩

def Step (s : TaskRun) : TaskOp → TaskRun → Prop
  | .fork directory new_task, t => ∃ m resume fuel id u, Elsewhere s.machine m ∧ Fresh s.created new_task ∧
      TaskState.fork resume fuel ⟨m, s.state.next_pid⟩ directory new_task = some (id, u) ∧
        t = ⟨u, s.created ++ [new_task], s.selected⟩
  | .switch, t => ∃ m, Elsewhere s.machine m ∧ m.current_task ≠ 0 ∧
      t = ⟨⟨m.switched, s.state.next_pid⟩, s.created, s.selected ++ [m.switched.current_task]⟩

/-- What a step does to the ring. -/
def ringOp : TaskOp → Op U32
  | .fork _ new_task => .push new_task
  | .switch => .next

end TaskRun

/-- The ready queue is the ring `r`, with the ids in order. -/
structure IsRing (s : TaskRun) (r : RoundRobin.Ring U32) : Prop where
  created : s.created = r.queue
  head : r.queue[0]? = some s.machine.ready_queue
  next : ∀ i a, r.queue[i]? = some a → (s.machine.tasks a).next = r.queue.getD (i + 1) 0
  ids : ∀ i a, r.queue[i]? = some a → (s.machine.tasks a).id = BitVec.ofNat 32 (i + 1)
  pid : s.state.next_pid = BitVec.ofNat 32 (r.queue.length + 1)
  current : s.machine.current_task = r.current
  apart : r.queue.Pairwise fun a b => Apart a.toNat sizeofTask b.toNat sizeofTask
  room : ∀ a ∈ r.queue, a ≠ 0 ∧ a.toNat + sizeofTask ≤ 2 ^ 32

variable {s t : TaskRun} {r : RoundRobin.Ring U32}

theorem Apart.ne_task {a b : U32} (h : Apart a.toNat sizeofTask b.toNat sizeofTask) : a ≠ b := by
  rintro rfl
  unfold Apart sizeofTask at h
  omega

theorem IsRing.nodup (h : IsRing s r) : r.queue.Nodup := h.apart.imp fun h => h.ne_task

theorem IsRing.length_lt (h : IsRing s r) : r.queue.length < 2 ^ 31 := by
  have hnd : (r.queue.map fun a => a.toNat / sizeofTask).Nodup :=
    List.pairwise_map.2 (h.apart.imp fun h he => by
      unfold Apart sizeofTask at *
      omega)
  have hle := hnd.length_le_of_subset (show _ ⊆ List.range (2 ^ 32 / sizeofTask + 1) from fun x hx => by
    obtain ⟨a, ha, rfl⟩ := List.mem_map.1 hx
    have := (h.room a ha).2
    unfold sizeofTask at *
    rw [List.mem_range]
    omega)
  rw [List.length_map, List.length_range] at hle
  exact Nat.lt_of_le_of_lt hle (by decide)

theorem lastTask_eq {m : Machine} {q : List U32} (hnext : ∀ i a, q[i]? = some a → (m.tasks a).next = q.getD (i + 1) 0)
    (hnull : ∀ a ∈ q, a ≠ 0) : ∀ {fuel i : Nat} {a : U32}, q[i]? = some a →
      m.lastTask fuel a = if q.length - i ≤ fuel then q[q.length - 1]? else none
  | 0, i, a, ha => by
    have hi := (List.getElem?_eq_some_iff.1 ha).1
    rw [if_neg (by omega)]
    rfl
  | fuel + 1, i, a, ha => by
    have hi := (List.getElem?_eq_some_iff.1 ha).1
    unfold Machine.lastTask
    by_cases hend : i + 1 < q.length
    · have h1 : (m.tasks a).next = q[i + 1] := by rw [hnext i a ha, List.getD_eq_getElem _ _ hend]
      rw [if_pos (by rw [h1]; exact hnull _ (List.getElem_mem hend)), h1,
        lastTask_eq hnext hnull (List.getElem?_eq_getElem hend)]
      exact if_congr (by omega) rfl rfl
    · have h0 : (m.tasks a).next = 0 := by rw [hnext i a ha, List.getD_eq_default _ _ (by omega)]
      rw [if_neg (by rw [h0]; simp), if_pos (by omega), ← ha, show q.length - 1 = i by omega]

theorem TaskState.link_tasks (s : TaskState) (a p x : U32) : (s.link a p).machine.tasks x =
    if x = a then { s.machine.tasks a with next := p } else s.machine.tasks x := rfl

theorem fork_spec {m : Machine} {q : List U32} {pid resume p d id last : U32} {fuel : Nat} {u : TaskState}
    (hnext : ∀ i a, q[i]? = some a → (m.tasks a).next = q.getD (i + 1) 0) (hnull : ∀ a ∈ q, a ≠ 0)
    (hhead : q[0]? = some m.ready_queue) (hlast : q[q.length - 1]? = some last) (hp : p ∉ q)
    (h : TaskState.fork resume fuel ⟨m, pid⟩ d p = some (id, u)) :
    u.next_pid = pid + 1 ∧ u.machine.current_task = m.current_task ∧ u.machine.ready_queue = m.ready_queue ∧
      (∀ x, u.machine.tasks x = if x = p then ⟨pid, m.esp, m.ebp, resume, d, 0⟩
        else if x = last then { m.tasks x with next := p } else m.tasks x) ∧ id = pid := by
  have hne : last ≠ p := fun he => hp (he ▸ List.mem_of_getElem? hlast)
  obtain ⟨t, ht, hret⟩ := Option.map_eq_some_iff.1 h
  simp only [TaskState.forkNew] at ht
  generalize hs : TaskState.create ⟨m.cli, pid⟩ p d = s at ht
  have htasks : ∀ x, s.machine.tasks x = if x = p then ⟨pid, 0, 0, 0, d, 0⟩ else m.tasks x := by
    subst hs
    exact fun x => rfl
  have hcur : s.machine.current_task = m.current_task := by subst hs; rfl
  have hready : s.machine.ready_queue = m.ready_queue := by subst hs; rfl
  have hregs : s.machine.esp = m.esp ∧ s.machine.ebp = m.ebp ∧ s.next_pid = pid + 1 := by
    subst hs
    exact ⟨rfl, rfl, rfl⟩
  have hkeep : ∀ a ∈ q, s.machine.tasks a = m.tasks a := fun a ha => by
    rw [htasks, if_neg fun he => hp (by rw [← he]; exact ha)]
  obtain ⟨tmp, htmp, rfl⟩ := Option.map_eq_some_iff.1 ht
  rw [lastTask_eq (q := q) (i := 0) (fun i a ha => by rw [hkeep a (List.mem_of_getElem? ha)]; exact hnext i a ha) hnull
    (by rw [hready]; exact hhead)] at htmp
  obtain rfl : last = tmp := by
    split at htmp
    · exact Option.some.inj (hlast.symm.trans htmp)
    · exact absurd htmp (by simp)
  unfold TaskState.forkReturn at hret
  rw [if_pos (by exact hcur)] at hret
  obtain ⟨rfl, rfl⟩ := Prod.mk.inj hret
  refine ⟨hregs.2.2, hcur, hready, fun x => ?_, ?_⟩
  · show (if x = p then ((s.link last p).machine.tasks p).save resume s.machine.esp s.machine.ebp
      else (s.link last p).machine.tasks x) = _
    rw [TaskState.link_tasks, TaskState.link_tasks, if_neg hne.symm, hregs.1, hregs.2.1, htasks p, if_pos rfl]
    by_cases hxp : x = p
    · rw [if_pos hxp, if_pos hxp]
      rfl
    · rw [if_neg hxp, if_neg hxp, htasks x, if_neg hxp, htasks last, if_neg hne]
      by_cases hxl : x = last
      · rw [if_pos hxl, if_pos hxl, hxl]
      · rw [if_neg hxl, if_neg hxl]
  · show (if p = p then ((s.link last p).machine.tasks p).save resume s.machine.esp s.machine.ebp
      else (s.link last p).machine.tasks p).id = pid
    rw [if_pos rfl, TaskState.link_tasks, if_neg hne.symm, htasks p, if_pos rfl]
    rfl

theorem IsRing.notMem (h : IsRing s r) {p : U32} (hp : Fresh s.created p) : p ∉ r.queue := fun hm =>
  (hp.2.2 p (h.created ▸ hm)).ne_task rfl

theorem IsRing.nonnull (h : IsRing s r) : ∀ a ∈ r.queue, a ≠ 0 := fun a ha => (h.room a ha).1

theorem IsRing.fork_returns (h : IsRing s r) {m : Machine} {p : U32} (hm : Elsewhere s.machine m) (hp : p ∉ r.queue)
    (resume d : U32) : ∃ id u, TaskState.fork resume r.queue.length ⟨m, s.state.next_pid⟩ d p = some (id, u) := by
  obtain ⟨htasks, -, hready⟩ := hm
  have hin := r.inside
  have hkeep : ∀ a ∈ r.queue, (TaskState.create ⟨m.cli, s.state.next_pid⟩ p d).machine.tasks a = s.machine.tasks a :=
    fun a ha => by
      show (if a = p then _ else m.tasks a) = _
      rw [if_neg fun he => hp (by rw [← he]; exact ha), htasks]
  have hlast := @lastTask_eq (TaskState.create ⟨m.cli, s.state.next_pid⟩ p d).machine r.queue
    (fun i a ha => by rw [hkeep a (List.mem_of_getElem? ha)]; exact h.next i a ha) h.nonnull
    r.queue.length 0 _ h.head
  rw [if_pos (Nat.sub_le _ _), List.getElem?_eq_getElem (show r.queue.length - 1 < r.queue.length by omega)] at hlast
  unfold TaskState.fork TaskState.forkNew
  simp only
  rw [show (TaskState.create ⟨m.cli, s.state.next_pid⟩ p d).machine.ready_queue = s.machine.ready_queue from hready,
    hlast]
  exact ⟨_, _, rfl⟩

/-- **`fork` puts the new task behind the last.** -/
theorem IsRing.fork (h : IsRing s r) {d p : U32} (hstep : TaskRun.Step s (.fork d p) t) :
    IsRing t (r.push p) ∧ t.selected = s.selected := by
  obtain ⟨m, resume, fuel, id, u, ⟨htasks, hcur, hready⟩, hp, hf, rfl⟩ := hstep
  have hin := r.inside
  have hlast := List.getElem?_eq_getElem (l := r.queue) (i := r.queue.length - 1) (by omega)
  obtain ⟨hpid, hcur', hready', htasks', -⟩ :=
    fork_spec (q := r.queue) (fun i a ha => by rw [htasks]; exact h.next i a ha)
    h.nonnull (by rw [hready]; exact h.head) hlast (h.notMem hp) hf
  have hne : ∀ {i a}, r.queue[i]? = some a → a ≠ p := fun ha he => h.notMem hp (he ▸ List.mem_of_getElem? ha)
  have hend : ∀ {i a}, r.queue[i]? = some a → (a = r.queue[r.queue.length - 1] ↔ i = r.queue.length - 1) := fun ha =>
    ⟨fun he => (List.getElem?_inj (List.getElem?_eq_some_iff.1 ha).1 h.nodup).1 (ha.trans (he ▸ hlast.symm)),
      fun he => Option.some.inj (ha.symm.trans (he ▸ hlast))⟩
  -- an entry of the longer queue is one of the old, or the new task
  have hsplit : ∀ {i a}, (r.push p).queue[i]? = some a → r.queue[i]? = some a ∨ i = r.queue.length ∧ a = p := by
    intro i a ha
    have hi := (List.getElem?_eq_some_iff.1 ha).1
    simp only [RoundRobin.Ring.push, List.length_append, List.length_cons, List.length_nil] at ha hi
    by_cases hlt : i < r.queue.length
    · exact .inl (by rw [List.getElem?_append_left hlt] at ha; exact ha)
    · obtain rfl : i = r.queue.length := by omega
      rw [List.getElem?_concat_length] at ha
      exact .inr ⟨rfl, (Option.some.inj ha).symm⟩
  refine ⟨⟨by rw [h.created]; rfl, ?_, fun i a ha => ?_, fun i a ha => ?_, ?_, ?_, ?_, ?_⟩, rfl⟩
  · show _ = some u.machine.ready_queue
    rw [hready', hready]
    exact RoundRobin.Ring.getElem?_push h.head
  · show (u.machine.tasks a).next = _
    rw [htasks']
    rcases hsplit ha with ha | ⟨rfl, rfl⟩
    · have hi := (List.getElem?_eq_some_iff.1 ha).1
      rw [if_neg (hne ha), htasks]
      by_cases hil : i = r.queue.length - 1
      · rw [if_pos ((hend ha).2 hil), hil, Nat.sub_add_cancel (by omega)]
        simp [RoundRobin.Ring.push]
      · rw [if_neg fun he => hil ((hend ha).1 he)]
        show (s.machine.tasks a).next = (r.queue ++ [p]).getD (i + 1) 0
        rw [h.next i a ha, List.getD_append _ _ _ _ (by omega)]
    · rw [if_pos rfl, List.getD_eq_default]
      simp [RoundRobin.Ring.push]
  · show (u.machine.tasks a).id = _
    rw [htasks']
    rcases hsplit ha with ha | ⟨rfl, rfl⟩
    · rw [if_neg (hne ha), htasks, ← h.ids i a ha]
      split <;> rfl
    · rw [if_pos rfl]
      exact h.pid
  · show u.next_pid = BitVec.ofNat 32 ((r.queue ++ [p]).length + 1)
    rw [hpid, h.pid, List.length_append]
    exact (BitVec.ofNat_add ..).symm
  · show u.machine.current_task = _
    rw [hcur', hcur, h.current, RoundRobin.Ring.push_current]
  · exact List.pairwise_append.2 ⟨h.apart, List.pairwise_singleton .., fun a ha b hb => by
      rw [List.mem_singleton.1 hb]; exact hp.2.2 a (h.created ▸ ha)⟩
  · intro a ha
    rcases List.mem_append.1 ha with ha | ha
    · exact h.room a ha
    · rw [List.mem_singleton.1 ha]; exact ⟨hp.1, hp.2.1⟩

/-- **A switch selects the next task of the ring.** -/
theorem IsRing.switch (h : IsRing s r) (hstep : TaskRun.Step s .switch t) :
    IsRing t r.next ∧ t.selected = s.selected ++ [r.next.current] := by
  obtain ⟨m, ⟨htasks, hcur, hready⟩, -, rfl⟩ := hstep
  have hsave : ∀ x, (m.switched.tasks x).next = (s.machine.tasks x).next ∧
      (m.switched.tasks x).id = (s.machine.tasks x).id := fun x => by
    rw [Machine.switched_tasks, htasks]
    split <;> exact ⟨rfl, rfl⟩
  have hsel : m.switched.current_task = r.next.current := by
    have hcurrent := h.next _ _ r.current_eq
    rw [Machine.switched_current_task, hcur, h.current]
    unfold Machine.successor
    rw [htasks, hready, hcurrent]
    refine Option.some.inj (Eq.trans ?_ r.next_current)
    unfold RoundRobin.Ring.nextCursor
    by_cases hend : r.cursor + 1 < r.queue.length
    · rw [List.getD_eq_getElem _ _ hend, if_neg (h.nonnull _ (List.getElem_mem hend)), if_pos hend,
        List.getElem?_eq_getElem hend]
    · rw [List.getD_eq_default _ _ (by omega), if_pos rfl, if_neg hend, h.head]
  refine ⟨⟨h.created, ?_, fun i a ha => ?_, fun i a ha => ?_, h.pid, hsel, h.apart, h.room⟩, by rw [hsel]⟩
  · show _ = some m.switched.ready_queue
    rw [Machine.switched_ready_queue, hready]
    exact h.head
  · exact (hsave a).1.trans (h.next i a ha)
  · exact (hsave a).2.trans (h.ids i a ha)

/-- **Runs of the tasks are runs of the ring**, with the same selections. -/
theorem IsRing.run : ∀ {l : List TaskOp} {s t : TaskRun} {r : RoundRobin.Ring U32}, IsRing s r →
    Reaches TaskRun.Step s l t →
    IsRing t (r.run (l.map TaskRun.ringOp)) ∧ t.selected = s.selected ++ r.selections (l.map TaskRun.ringOp)
  | [], s, t, r, h, hr => by
    obtain rfl : s = t := hr
    exact ⟨h, (List.append_nil _).symm⟩
  | .fork d p :: l, s, t, r, h, ⟨u, hu, hr⟩ => by
    obtain ⟨hring, hsel⟩ := h.fork hu
    rw [← hsel]
    exact hring.run hr
  | .switch :: l, s, t, r, h, ⟨u, hu, hr⟩ => by
    obtain ⟨hring, hsel⟩ := h.switch hu
    obtain ⟨hring', hsel'⟩ := hring.run hr
    refine ⟨hring', hsel'.trans ?_⟩
    rw [hsel, List.append_assoc]
    rfl

theorem links_of_next {f : U32 → U32} : ∀ {l : List U32} {x : U32},
    (∀ i a, (x :: l)[i]? = some a → f a = (x :: l).getD (i + 1) 0) → Links f x l 0
  | [], x, h => h 0 x rfl
  | _ :: _, x, h => ⟨h 0 x rfl, links_of_next fun i a ha => h (i + 1) a ha⟩

theorem IsRing.readyQueue (h : IsRing s r) : ReadyQueue s.machine s.created := by
  rw [h.created]
  refine ⟨?_, h.nodup, fun h0 => h.nonnull 0 h0 rfl⟩
  have hhead := h.head
  have hnext := h.next
  generalize r.queue = q at hhead hnext
  cases q with
  | nil => simp at hhead
  | cons x l =>
    obtain rfl : x = s.machine.ready_queue := Option.some.inj hhead
    exact ⟨l, rfl, links_of_next hnext⟩

theorem IsRing.ids_lt (h : IsRing s r) :
    s.created.Pairwise fun a b => (s.machine.tasks a).id.toInt < (s.machine.tasks b).id.toInt := by
  rw [h.created, List.pairwise_iff_getElem]
  intro i j hi hj hij
  have hlen := h.length_lt
  rw [h.ids i _ (List.getElem?_eq_getElem hi), h.ids j _ (List.getElem?_eq_getElem hj)]
  have hid : ∀ n, n < r.queue.length → (BitVec.ofNat 32 (n + 1)).toInt = (n : Int) + 1 := fun n hn => by
    have hn' : (BitVec.ofNat 32 (n + 1)).toNat = n + 1 := by
      rw [BitVec.toNat_ofNat]
      omega
    rw [BitVec.toInt_eq_toNat_of_lt (by omega), hn']
    rfl
  rw [hid i hi, hid j hj]
  omega

theorem isRing_start {s : TaskState} {p : U32} (h1 : s.next_pid = 1) (hp : Fresh [] p) :
    IsRing (TaskRun.start s p) ⟨[p], 0, Nat.one_pos⟩ := by
  have htask : ((TaskRun.start s p).machine.tasks p) = ⟨1, 0, 0, 0, s.machine.current_directory, 0⟩ := by
    rw [← h1]
    exact if_pos rfl
  have hone : ∀ {i : Nat} {a : U32}, [p][i]? = some a → i = 0 ∧ a = p := fun {i a} ha => by
    cases i with
    | zero => exact ⟨rfl, (Option.some.inj ha).symm⟩
    | succ i => simp at ha
  refine ⟨rfl, rfl, fun i a ha => ?_, fun i a ha => ?_, ?_, rfl, List.pairwise_singleton .., fun a ha => ?_⟩
  · obtain ⟨rfl, rfl⟩ := hone ha
    rw [htask]
    rfl
  · obtain ⟨rfl, rfl⟩ := hone ha
    rw [htask]
    rfl
  · show s.next_pid + 1 = _
    rw [h1]
    rfl
  · rw [List.mem_singleton.1 ha]
    exact ⟨hp.1, hp.2.1⟩

/-- **The ready queue**, from `initialise_tasking` on: it is a list that ends in the null pointer and holds every task
created, once, in the order of the ids.  `current_task` is one of them; until it is selected again, every other task
of the queue is selected once. -/
theorem ready_queue {s : TaskState} {p : U32} (h1 : s.next_pid = 1) (hp : Fresh [] p) {l : List TaskOp} {t : TaskRun}
    (hr : Reaches TaskRun.Step (TaskRun.start s p) l t) :
    ReadyQueue t.machine t.created ∧
      (t.created.Pairwise fun a b => (t.machine.tasks a).id.toInt < (t.machine.tasks b).id.toInt) ∧
      t.machine.current_task ∈ t.created ∧
      ∀ l' u mid, Reaches TaskRun.Step t l' u → u.selected = t.selected ++ mid ++ [t.machine.current_task] →
        t.machine.current_task ∉ mid → ∀ b ∈ t.created, b ≠ t.machine.current_task → mid.count b = 1 := by
  obtain ⟨h, -⟩ := (isRing_start h1 hp).run hr
  generalize RoundRobin.Ring.run _ _ = r at h
  have hmem : t.machine.current_task ∈ t.created := by
    rw [h.current, h.created]
    exact List.getElem_mem r.inside
  refine ⟨h.readyQueue, h.ids_lt, hmem, fun l' u mid hr' hsel hmid b hb hne => ?_⟩
  obtain ⟨h', hsel'⟩ := h.run hr'
  rw [hsel', List.append_assoc, List.append_cancel_left_eq, h.current] at hsel
  rw [h.current] at hmid hne
  rw [h.created] at hb
  exact RoundRobin.Ring.count_selections h'.nodup hsel hmid hb hne

/-- **Fairness**, from `initialise_tasking` on: in every part of a run, every task that is there at its start is
selected at least once for each whole round of the queue at its end, and less than once more than the rounds of the
queue at its start. -/
theorem fair_shares {s : TaskState} {p : U32} (h1 : s.next_pid = 1) (hp : Fresh [] p) {l : List TaskOp} {t : TaskRun}
    (hr : Reaches TaskRun.Step (TaskRun.start s p) l t) : ∀ l' u mid, Reaches TaskRun.Step t l' u →
      u.selected = t.selected ++ mid → ∀ b ∈ t.created, mid.length / u.created.length ≤ mid.count b ∧
        mid.count b * t.created.length < mid.length + t.created.length := by
  obtain ⟨h, -⟩ := (isRing_start h1 hp).run hr
  generalize RoundRobin.Ring.run _ _ = r at h
  intro l' u mid hr' hsel b hb
  obtain ⟨h', hsel'⟩ := h.run hr'
  rw [hsel', List.append_cancel_left_eq] at hsel
  rw [h.created] at hb
  rw [← hsel, h.created, h'.created]
  exact RoundRobin.Ring.count_selections_share h'.nodup hb

/-- Two tasks, and three switches. -/
theorem fair_shares_forked : ∃ (t u : TaskRun) (mid : List U32),
    Reaches TaskRun.Step (TaskRun.start ⟨twoTasks.machine, 1⟩ 0x1000) [.fork 0x5000 0x2000] t ∧
      u.selected = t.selected ++ mid ∧ mid.length = 3 ∧ ∀ b ∈ t.created, 1 ≤ mid.count b ∧ mid.count b ≤ 2 := by
  have hfresh : Fresh [] 0x1000 := ⟨by decide, by decide, by simp⟩
  have hfresh' : Fresh [0x1000] 0x2000 := ⟨by decide, by decide, by
    rintro q hq
    rw [List.mem_singleton.1 hq]
    exact .inl (by decide)⟩
  obtain ⟨t, u, mid, hr, hr', hsel, hmid, ht, hu⟩ : ∃ (t u : TaskRun) (mid : List U32),
      Reaches TaskRun.Step (TaskRun.start ⟨twoTasks.machine, 1⟩ 0x1000) [.fork 0x5000 0x2000] t ∧
      Reaches TaskRun.Step t [.switch, .switch, .switch] u ∧ u.selected = t.selected ++ mid ∧ mid.length = 3 ∧
      t.created.length = 2 ∧ u.created.length = 2 :=
    ⟨_, _, _, ⟨_, ⟨_, 0x100600, 1, _, _, ⟨rfl, rfl, rfl⟩, hfresh', rfl, rfl⟩, rfl⟩,
      ⟨_, ⟨_, ⟨rfl, rfl, rfl⟩, by decide, rfl⟩, _, ⟨_, ⟨rfl, rfl, rfl⟩, by decide, rfl⟩,
        _, ⟨_, ⟨rfl, rfl, rfl⟩, by decide, rfl⟩, rfl⟩, rfl, rfl, rfl, rfl⟩
  refine ⟨t, u, mid, hr, hsel, hmid, fun b hb => ?_⟩
  obtain ⟨hlo, hhi⟩ := fair_shares rfl hfresh hr _ u mid hr' hsel b hb
  rw [hmid, hu] at hlo
  rw [hmid, ht] at hhi
  omega

theorem ready_queue_forked : ∃ t, Reaches TaskRun.Step (TaskRun.start ⟨twoTasks.machine, 1⟩ 0x1000)
    [.fork 0x5000 0x2000, .switch] t ∧ t.machine.current_task = 0x2000 ∧ ReadyQueue t.machine [0x1000, 0x2000] := by
  have hfresh : Fresh [] 0x1000 := ⟨by decide, by decide, by simp⟩
  have hfresh' : Fresh [0x1000] 0x2000 := ⟨by decide, by decide, by
    rintro q hq
    rw [List.mem_singleton.1 hq]
    exact .inl (by decide)⟩
  have hr : ∃ t, Reaches TaskRun.Step (TaskRun.start ⟨twoTasks.machine, 1⟩ 0x1000) [.fork 0x5000 0x2000, .switch] t ∧
      t.machine.current_task = 0x2000 ∧ t.created = [0x1000, 0x2000] :=
    ⟨_, ⟨_, ⟨_, 0x100600, 1, _, _, ⟨rfl, rfl, rfl⟩, hfresh', rfl, rfl⟩, _, ⟨_, ⟨rfl, rfl, rfl⟩, by decide, rfl⟩, rfl⟩,
      by decide, rfl⟩
  obtain ⟨t, hr, hcur, hc⟩ := hr
  exact ⟨t, hr, hcur, hc ▸ (ready_queue rfl hfresh hr).1⟩

end Loris
