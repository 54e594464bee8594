/-
A pool of workers that fill the slots of an array.

One dispatcher sends the job numbers `0, …, n - 1` through a bounded
queue, workers take them in turn, and each worker stores the result of a
job in that job's slot. The steps of dispatcher and workers interleave in
any way.

# Safety

A slot holds the result of its own job, and every job that was sent is
queued, running or stored (`Inv`). When nothing is left to do all slots
are filled, so what a pool leaves does not depend on the interleaving
(`slots_of_final`).

# Progress

A pool with room for one job in the queue and one worker can always
step until all is done (`exists_step`), and each step lowers the work
that is left (`work_lt`): every run ends, and it ends with all slots
filled.

# Loops

`LoopReturns` is a loop that may run on a pool: the jobs are handed out
in the order of a schedule and the first error is reported in the order
of the jobs. It returns what the plain loop returns
(`loopReturns_iff`).
-/
import ZephyrChain.Lib.Except
import Mathlib.Data.List.Perm.Basic
import Mathlib.Logic.Relation

namespace ZephyrChain.Lib

/-- The fixed part of a pool: how many jobs, workers and places in the
queue, and the result of each job. -/
structure PoolSpec (β : Type) where
  jobs : Nat
  workers : Nat
  capacity : Nat
  result : Nat → β

/-- The state of a pool. -/
structure Pool (β : Type) where
  next : Nat
  queue : List Nat
  running : List Nat
  slots : Nat → Option β

namespace Pool

variable {β : Type} (spec : PoolSpec β)

def start : Pool β := ⟨0, [], [], fun _ => none⟩

/-- One step of the dispatcher or of a worker. -/
inductive Step : Pool β → Pool β → Prop
  | send {s : Pool β} : s.next < spec.jobs →
      s.queue.length < spec.capacity →
      Step s { s with next := s.next + 1, queue := s.queue ++ [s.next] }
  | take {s : Pool β} {job : Nat} {rest : List Nat} :
      s.queue = job :: rest → s.running.length < spec.workers →
      Step s { s with queue := rest, running := job :: s.running }
  | finish {s : Pool β} {job : Nat} : job ∈ s.running →
      Step s { s with
        running := s.running.erase job
        slots := fun i => if i = job then some (spec.result job)
          else s.slots i }

/-- Any number of steps. -/
abbrev Steps : Pool β → Pool β → Prop := Relation.ReflTransGen (Step spec)

/-- The queue is closed and every worker has returned. -/
structure Final (s : Pool β) : Prop where
  sent : s.next = spec.jobs
  queue : s.queue = []
  running : s.running = []

-- ==== safety

/-- A slot holds the result of its job, and no job is lost. -/
structure Inv (s : Pool β) : Prop where
  bound : s.next ≤ spec.jobs
  own : ∀ i b, s.slots i = some b → b = spec.result i
  kept : ∀ i, i < s.next → i ∈ s.queue ∨ i ∈ s.running ∨
    s.slots i = some (spec.result i)

variable {spec} {s s' : Pool β}

theorem inv_start : Inv spec start where
  bound := Nat.zero_le _
  own := by intro i b h; cases h
  kept := by intro i h; cases h

theorem Inv.step (h : Inv spec s) (hstep : Step spec s s') :
    Inv spec s' := by
  cases hstep with
  | send hnext _ =>
    refine ⟨hnext, h.own, fun i hi => ?_⟩
    rcases Nat.lt_succ_iff_lt_or_eq.1 hi with hi | rfl
    · exact (h.kept i hi).imp_left (List.mem_append_left _)
    · exact .inl (List.mem_append_right _ (List.mem_singleton_self _))
  | @take job rest hqueue _ =>
    refine ⟨h.bound, h.own, fun i hi => ?_⟩
    rcases h.kept i hi with hmem | hmem | hslot
    · rw [hqueue] at hmem
      rcases List.mem_cons.1 hmem with rfl | hmem
      · exact .inr (.inl List.mem_cons_self)
      · exact .inl hmem
    · exact .inr (.inl (List.mem_cons_of_mem _ hmem))
    · exact .inr (.inr hslot)
  | @finish job hjob =>
    refine ⟨h.bound, fun i b hb => ?_, fun i hi => ?_⟩
    · simp only at hb
      split at hb
      case isTrue heq =>
        rw [heq]
        exact (Option.some.inj hb).symm
      case isFalse => exact h.own i b hb
    · by_cases heq : i = job
      · exact .inr (.inr (by simp [heq]))
      · rcases h.kept i hi with hmem | hmem | hslot
        · exact .inl hmem
        · exact .inr (.inl ((List.mem_erase_of_ne heq).2 hmem))
        · exact .inr (.inr (by simp [heq, hslot]))

theorem Inv.steps (h : Inv spec s) (hsteps : Steps spec s s') :
    Inv spec s' := by
  induction hsteps with
  | refl => exact h
  | tail _ hstep ih => exact ih.step hstep

/-- However the steps interleave, a finished pool leaves the result of
every job in its slot. -/
theorem slots_of_final (hsteps : Steps spec start s) (h : Final spec s)
    {i : Nat} (hi : i < spec.jobs) :
    s.slots i = some (spec.result i) := by
  have hinv := inv_start.steps hsteps
  rw [← h.sent] at hi
  rcases hinv.kept i hi with hmem | hmem | hslot
  · rw [h.queue] at hmem
    cases hmem
  · rw [h.running] at hmem
    cases hmem
  · exact hslot

-- ==== progress

/-- The steps that are left: a job is sent, taken and finished. -/
def work (spec : PoolSpec β) (s : Pool β) : Nat :=
  3 * (spec.jobs - s.next) + 2 * s.queue.length + s.running.length

theorem work_lt (hstep : Step spec s s') : work spec s' < work spec s := by
  unfold work
  cases hstep with
  | send hnext _ =>
    simp only [List.length_append, List.length_singleton]
    omega
  | take hqueue _ =>
    simp only [hqueue, List.length_cons]
    omega
  | @finish job hjob =>
    have hlen := List.length_erase_of_mem hjob
    have hpos := List.length_pos_of_mem hjob
    simp only [hlen]
    omega

/-- A pool that is not done can step. -/
theorem exists_step (hworkers : 0 < spec.workers)
    (hcapacity : 0 < spec.capacity) (hinv : Inv spec s)
    (h : ¬ Final spec s) : ∃ s', Step spec s s' := by
  by_cases hrunning : s.running = []
  · cases hqueue : s.queue with
    | nil =>
      have hnext : s.next < spec.jobs := by
        refine Nat.lt_of_le_of_ne hinv.bound fun heq => ?_
        exact h ⟨heq, hqueue, hrunning⟩
      exact ⟨_, .send hnext (by rw [hqueue]; exact hcapacity)⟩
    | cons job rest =>
      exact ⟨_, .take hqueue (by rw [hrunning]; exact hworkers)⟩
  · obtain ⟨job, hjob⟩ := List.exists_mem_of_ne_nil _ hrunning
    exact ⟨_, .finish hjob⟩

/-- Every run can be carried on until the pool is done. -/
theorem exists_final (hworkers : 0 < spec.workers)
    (hcapacity : 0 < spec.capacity) (hinv : Inv spec s) :
    ∃ s', Steps spec s s' ∧ Final spec s' := by
  induction hn : work spec s using Nat.strongRecOn generalizing s with
  | ind n ih =>
    by_cases hfinal : Final spec s
    · exact ⟨s, .refl, hfinal⟩
    · obtain ⟨s₁, hstep⟩ := exists_step hworkers hcapacity hinv hfinal
      have hlt : work spec s₁ < n := hn ▸ work_lt hstep
      obtain ⟨s₂, hsteps, hdone⟩ := ih _ hlt (hinv.step hstep) rfl
      exact ⟨s₂, .head hstep hsteps, hdone⟩

end Pool

-- ==== loops

variable {ε β : Type}

/-- The pool of a loop whose jobs are handed out in the order of a
schedule. -/
def loopPool (n workers capacity : Nat) (schedule : List Nat)
    (f : Nat → Except ε β) : PoolSpec (Except ε β) where
  jobs := n
  workers := workers
  capacity := capacity
  result := fun i => f (schedule.getD i 0)

/-- What a loop over the jobs `0, …, n - 1` returns: on one worker it
stops at the first error, on a pool every job runs and the slots are
read in order afterwards. -/
inductive LoopReturns (n workers capacity : Nat) (schedule : List Nat)
    (f : Nat → Except ε β) : Except ε (List β) → Prop
  | serial : workers ≤ 1 →
      LoopReturns n workers capacity schedule f ((List.range n).mapM f)
  | pooled {s : Pool (Except ε β)} {slot : Nat → Except ε β} :
      1 < workers →
      Pool.Steps (loopPool n workers capacity schedule f) Pool.start s →
      Pool.Final (loopPool n workers capacity schedule f) s →
      (∀ job < n, s.slots (schedule.idxOf job) = some (slot job)) →
      LoopReturns n workers capacity schedule f ((List.range n).mapM slot)

/-- The slots of a finished loop hold the results of the jobs. -/
theorem loopPool_slots {n workers capacity : Nat} {schedule : List Nat}
    {f : Nat → Except ε β} (hschedule : schedule.Perm (List.range n))
    {s : Pool (Except ε β)}
    (hsteps : Pool.Steps (loopPool n workers capacity schedule f)
      Pool.start s)
    (hfinal : Pool.Final (loopPool n workers capacity schedule f) s)
    {job : Nat} (hjob : job < n) :
    s.slots (schedule.idxOf job) = some (f job) := by
  have hmem : job ∈ schedule := hschedule.mem_iff.2 (List.mem_range.2 hjob)
  have hlt : schedule.idxOf job < schedule.length :=
    List.idxOf_lt_length_iff.2 hmem
  have hlen : schedule.length = n := by
    rw [hschedule.length_eq, List.length_range]
  have hbound : schedule.idxOf job < n := hlen ▸ hlt
  have hslot := Pool.slots_of_final hsteps hfinal hbound
  have hget : schedule.getD (schedule.idxOf job) 0 = job := by
    rw [List.getD_eq_getElem?_getD, List.getElem?_eq_getElem hlt]
    exact List.getElem_idxOf hlt
  rw [hslot]
  show some (f (schedule.getD (schedule.idxOf job) 0)) = some (f job)
  rw [hget]

/-- However a loop is run, it returns what the plain loop returns. -/
theorem loopReturns_iff {n workers capacity : Nat} {schedule : List Nat}
    {f : Nat → Except ε β} (hschedule : schedule.Perm (List.range n))
    (hcapacity : 0 < capacity) {out : Except ε (List β)} :
    LoopReturns n workers capacity schedule f out ↔
      out = (List.range n).mapM f := by
  constructor
  · intro h
    cases h with
    | serial _ => rfl
    | @pooled s slot _ hsteps hfinal hslots =>
      refine mapM_congr fun job hjob => ?_
      have hlt := List.mem_range.1 hjob
      have hslot := loopPool_slots hschedule hsteps hfinal hlt
      rw [hslots job hlt] at hslot
      exact Option.some.inj hslot
  · rintro rfl
    by_cases hworkers : workers ≤ 1
    · exact .serial hworkers
    · have hmany : 1 < workers := Nat.lt_of_not_le hworkers
      have hinv : Pool.Inv (loopPool n workers capacity schedule f)
          Pool.start := Pool.inv_start
      obtain ⟨s, hsteps, hfinal⟩ :=
        Pool.exists_final (Nat.lt_trans Nat.one_pos hmany) hcapacity hinv
      exact .pooled hmany hsteps hfinal
        fun job hjob => loopPool_slots hschedule hsteps hfinal hjob

end ZephyrChain.Lib
