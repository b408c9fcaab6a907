import Mathlib.Algebra.GroupWithZero.Nat
import Mathlib.Data.List.Perm.Basic

/-!
# Workers that append to one list under a mutex

A group of workers, one per job, each computes a block and appends it to a shared list. An
append is a read of the list and a later write, and a mutex is taken around the two; a worker
whose job gives no block finishes without taking it. A step names the position of the worker
that makes it, so a schedule is a list of positions. `shared_of_finished` is the result: under
every schedule the shared list is the concatenation of the blocks in the order in which the
workers wrote, and that order has each job once. `exists_step` says that a group can always go
on: as long as a worker has not finished, one of them can make a step, and a step leaves fewer
of them (`left_lt`).
-/

namespace Transition.LockedAppend

/-- Where a worker stands. -/
inductive Phase (α : Type*) where
  /-- Computing its block. -/
  | working
  /-- Has the mutex, and reads the shared list next. -/
  | holding
  /-- Has read the shared list, and writes it back with its block next. -/
  | writing (snapshot : List α)
  /-- Has written, and releases the mutex next. -/
  | releasing
  | finished
  deriving DecidableEq, Repr

/-- The phases between taking and releasing the mutex. -/
def Phase.inside {α : Type*} : Phase α → Bool
  | .holding | .writing _ | .releasing => true
  | .working | .finished => false

/-- The phases after a worker's block, if any, is in the shared list. -/
def Phase.written {α : Type*} : Phase α → Bool
  | .releasing | .finished => true
  | .working | .holding | .writing _ => false

structure Worker (ι α : Type*) where
  job : ι
  phase : Phase α
  deriving DecidableEq, Repr

structure State (ι α : Type*) where
  workers : List (Worker ι α)
  /-- The position of the worker that has the mutex. -/
  owner : Option Nat
  shared : List α
  /-- The jobs in the order in which their workers got past the append. -/
  order : List ι
  deriving DecidableEq, Repr

variable {ι α : Type*}

/-- All workers are at the start of their jobs. -/
def State.spawn (jobs : List ι) : State ι α where
  workers := jobs.map fun job => ⟨job, .working⟩
  owner := none
  shared := []
  order := []

/-- More workers, at the start of their jobs. -/
def State.addAll (s : State ι α) (jobs : List ι) : State ι α :=
  { s with workers := s.workers ++ jobs.map fun job => ⟨job, .working⟩ }

/-- Whether every worker has finished. -/
def State.allFinished (s : State ι α) : Bool :=
  s.workers.all fun worker => !worker.phase.inside && worker.phase.written

/-- Move the worker at a position to another phase. -/
def State.advance (s : State ι α) (i : Nat) (worker : Worker ι α) (phase : Phase α) :
    State ι α :=
  { s with workers := s.workers.set i { worker with phase } }

/-- The next step of the worker at position `i`. -/
def step (block : ι → Option (List α)) (s : State ι α) (i : Nat) : Option (State ι α) := do
  let worker ← s.workers[i]?
  match worker.phase with
  | .working =>
      match block worker.job with
      | none => some { s.advance i worker .finished with order := s.order ++ [worker.job] }
      | some _ =>
          if s.owner = none then some { s.advance i worker .holding with owner := some i }
          else none
  | .holding => some (s.advance i worker (.writing s.shared))
  | .writing snapshot =>
      some { s.advance i worker .releasing with
        shared := snapshot ++ (block worker.job).getD []
        order := s.order ++ [worker.job] }
  | .releasing => some { s.advance i worker .finished with owner := none }
  | .finished => none

/-- The steps of the worker at a position. -/
inductive Step (block : ι → Option (List α)) (s : State ι α) (i : Nat) (worker : Worker ι α) :
    State ι α → Prop where
  /-- A worker whose job gives no block finishes. -/
  | skip (hphase : worker.phase = .working) (hblock : block worker.job = none) :
      Step block s i worker { s.advance i worker .finished with order := s.order ++ [worker.job] }
  /-- A worker takes the free mutex. -/
  | lock (hphase : worker.phase = .working) (howner : s.owner = none) :
      Step block s i worker { s.advance i worker .holding with owner := some i }
  | read (hphase : worker.phase = .holding) :
      Step block s i worker (s.advance i worker (.writing s.shared))
  | write (snapshot : List α) (hphase : worker.phase = .writing snapshot) :
      Step block s i worker
        { s.advance i worker .releasing with
          shared := snapshot ++ (block worker.job).getD []
          order := s.order ++ [worker.job] }
  | unlock (hphase : worker.phase = .releasing) :
      Step block s i worker { s.advance i worker .finished with owner := none }

theorem step_of_next {block : ι → Option (List α)} {s next : State ι α} {i : Nat}
    (h : step block s i = some next) :
    ∃ worker, s.workers[i]? = some worker ∧ Step block s i worker next := by
  obtain ⟨worker, hworker, h⟩ := Option.bind_eq_some_iff.mp h
  refine ⟨worker, hworker, ?_⟩
  cases hphase : worker.phase with
  | working =>
      simp only [hphase] at h
      cases hblock : block worker.job with
      | none =>
          simp only [hblock] at h
          cases h
          exact .skip hphase hblock
      | some items =>
          simp only [hblock] at h
          split at h
          · rename_i howner
            cases h
            exact .lock hphase howner
          · cases h
  | holding =>
      simp only [hphase] at h
      cases h
      exact .read hphase
  | writing snapshot =>
      simp only [hphase] at h
      cases h
      exact .write snapshot hphase
  | releasing =>
      simp only [hphase] at h
      cases h
      exact .unlock hphase
  | finished =>
      simp only [hphase] at h
      cases h

/-- What holds of the group under every schedule. -/
structure Consistent (block : ι → Option (List α)) (jobs : List ι) (s : State ι α) : Prop where
  jobs : s.workers.map Worker.job = jobs
  /-- Only the owner of the mutex is between taking and releasing it. -/
  owner : ∀ (i : Nat) (worker : Worker ι α), s.workers[i]? = some worker →
    worker.phase.inside = true → s.owner = some i
  /-- What a worker has read is still what the shared list is. -/
  snapshot : ∀ (i : Nat) (worker : Worker ι α) (snapshot : List α),
    s.workers[i]? = some worker → worker.phase = .writing snapshot → snapshot = s.shared
  order : s.order.Perm ((s.workers.filter fun worker => worker.phase.written).map Worker.job)
  shared : s.shared = s.order.flatMap fun job => (block job).getD []

/-- Moving a worker within the unwritten or within the written phases keeps the written jobs. -/
theorem written_set_of_eq {workers : List (Worker ι α)} {i : Nat} {worker : Worker ι α}
    {phase : Phase α} (hworker : workers[i]? = some worker)
    (hphase : phase.written = worker.phase.written) :
    ((workers.set i { worker with phase }).filter fun worker => worker.phase.written).map
        Worker.job =
      (workers.filter fun worker => worker.phase.written).map Worker.job := by
  induction workers generalizing i with
  | nil => simp at hworker
  | cons first rest ih =>
      cases i with
      | zero =>
          obtain rfl : first = worker := by simpa using hworker
          cases hwritten : first.phase.written <;>
            simp [hphase, hwritten]
      | succ i =>
          have hrest := ih (i := i) (by simpa using hworker)
          cases hwritten : first.phase.written <;> simp [hwritten, hrest]

/-- Moving a worker past its append adds its job to the written ones. -/
theorem written_set_perm {workers : List (Worker ι α)} {i : Nat} {worker : Worker ι α}
    {phase : Phase α} (hworker : workers[i]? = some worker)
    (hbefore : worker.phase.written = false) (hafter : phase.written = true) :
    (((workers.filter fun worker => worker.phase.written).map Worker.job) ++ [worker.job]).Perm
      (((workers.set i { worker with phase }).filter fun worker => worker.phase.written).map
        Worker.job) := by
  induction workers generalizing i with
  | nil => simp at hworker
  | cons first rest ih =>
      cases i with
      | zero =>
          obtain rfl : first = worker := by simpa using hworker
          simp [hbefore, hafter]
      | succ i =>
          have hrest := ih (i := i) (by simpa using hworker)
          cases hwritten : first.phase.written with
          | false => simpa [hwritten] using hrest
          | true => simpa [hwritten] using hrest.cons first.job

/-- Moving a worker to another phase changes no job. -/
theorem jobs_set {workers : List (Worker ι α)} {i : Nat} {worker : Worker ι α} {phase : Phase α}
    (hworker : workers[i]? = some worker) :
    (workers.set i { worker with phase }).map Worker.job = workers.map Worker.job := by
  rw [List.map_set]
  obtain ⟨hlt, rfl⟩ := List.getElem?_eq_some_iff.mp hworker
  rw [← List.getElem_map Worker.job, List.set_getElem_self]
  simpa using hlt

/-- After a move, the worker at a position is the moved one or was there before. -/
theorem of_getElem_advance {s : State ι α} {i j : Nat} {worker other : Worker ι α}
    {phase : Phase α} (h : (s.advance i worker phase).workers[j]? = some other) :
    (j = i ∧ other = { worker with phase }) ∨ (j ≠ i ∧ s.workers[j]? = some other) := by
  rw [State.advance, List.getElem?_set] at h
  split at h
  · rename_i heq
    split at h
    · exact Or.inl ⟨heq.symm, (Option.some.inj h).symm⟩
    · cases h
  · rename_i hne
    exact Or.inr ⟨Ne.symm hne, h⟩

variable {block : ι → Option (List α)} {jobs : List ι} {s next : State ι α} {i : Nat}
  {worker : Worker ι α}

theorem consistent_spawn (block : ι → Option (List α)) (jobs : List ι) :
    Consistent block jobs (.spawn jobs : State ι α) where
  jobs := by simp [State.spawn, Function.comp_def]
  owner := by
    intro i worker hworker hinside
    simp only [State.spawn, List.getElem?_map, Option.map_eq_some_iff] at hworker
    obtain ⟨job, _, rfl⟩ := hworker
    cases hinside
  snapshot := by
    intro i worker snapshot hworker hphase
    simp only [State.spawn, List.getElem?_map, Option.map_eq_some_iff] at hworker
    obtain ⟨job, _, rfl⟩ := hworker
    cases hphase
  order := by simp [State.spawn, Phase.written]
  shared := rfl

/-- No second worker is between taking and releasing the mutex. -/
theorem Consistent.sole (h : Consistent block jobs s) (hworker : s.workers[i]? = some worker)
    (hinside : worker.phase.inside = true) {j : Nat} {other : Worker ι α}
    (hother : s.workers[j]? = some other) (hother' : other.phase.inside = true) : j = i := by
  have howner := h.owner j other hother hother'
  rw [h.owner i worker hworker hinside] at howner
  exact (Option.some.inj howner).symm

/-- A move of a worker that does not bring it inside leaves the owner as it should be. -/
theorem Consistent.owner_advance (h : Consistent block jobs s)
    (hworker : s.workers[i]? = some worker) {phase : Phase α}
    (hphase : phase.inside = true → worker.phase.inside = true) (j : Nat) (other : Worker ι α)
    (hother : (s.advance i worker phase).workers[j]? = some other)
    (hinside : other.phase.inside = true) : s.owner = some j := by
  rcases of_getElem_advance hother with ⟨rfl, rfl⟩ | ⟨_, hold⟩
  · exact h.owner j worker hworker (hphase hinside)
  · exact h.owner j other hold hinside

/-- A move of a worker leaves the snapshots right, if its own is. -/
theorem Consistent.snapshot_advance (h : Consistent block jobs s) {phase : Phase α}
    (hphase : ∀ snapshot, phase = .writing snapshot → snapshot = s.shared) (j : Nat)
    (other : Worker ι α) (snapshot : List α)
    (hother : (s.advance i worker phase).workers[j]? = some other)
    (hwriting : other.phase = .writing snapshot) : snapshot = s.shared := by
  rcases of_getElem_advance hother with ⟨_, rfl⟩ | ⟨_, hold⟩
  · exact hphase snapshot hwriting
  · exact h.snapshot j other snapshot hold hwriting

/-- A move of a worker that is not its append leaves the order as it is. -/
theorem Consistent.order_advance (h : Consistent block jobs s)
    (hworker : s.workers[i]? = some worker) {phase : Phase α}
    (hphase : phase.written = worker.phase.written) :
    s.order.Perm (((s.advance i worker phase).workers.filter fun worker =>
      worker.phase.written).map Worker.job) :=
  h.order.trans (List.Perm.of_eq (written_set_of_eq hworker hphase).symm)

/-- A worker whose job gives no block finishes. -/
theorem Consistent.skip (h : Consistent block jobs s) (hworker : s.workers[i]? = some worker)
    (hphase : worker.phase = .working) (hblock : block worker.job = none) :
    Consistent block jobs
      { s.advance i worker .finished with order := s.order ++ [worker.job] } where
  jobs := (jobs_set hworker).trans h.jobs
  owner := h.owner_advance hworker (by simp [Phase.inside])
  snapshot := h.snapshot_advance (by simp)
  order := (h.order.append_right _).trans
    (written_set_perm hworker (by rw [hphase]; rfl) rfl)
  shared := by
    show s.shared = _
    simp [h.shared, List.flatMap_append, hblock]

/-- A worker takes the free mutex. -/
theorem Consistent.lock (h : Consistent block jobs s) (hworker : s.workers[i]? = some worker)
    (hphase : worker.phase = .working) (howner : s.owner = none) :
    Consistent block jobs { s.advance i worker .holding with owner := some i } where
  jobs := (jobs_set hworker).trans h.jobs
  owner := by
    intro j other hother hinside
    rcases of_getElem_advance hother with ⟨rfl, rfl⟩ | ⟨_, hold⟩
    · rfl
    · have hmutex := h.owner j other hold hinside
      rw [howner] at hmutex
      cases hmutex
  snapshot := h.snapshot_advance (by simp)
  order := h.order_advance hworker (by rw [hphase]; rfl)
  shared := h.shared

/-- The owner of the mutex reads the shared list. -/
theorem Consistent.read (h : Consistent block jobs s) (hworker : s.workers[i]? = some worker)
    (hphase : worker.phase = .holding) :
    Consistent block jobs (s.advance i worker (.writing s.shared)) where
  jobs := (jobs_set hworker).trans h.jobs
  owner := h.owner_advance hworker (by rw [hphase]; exact fun _ => rfl)
  snapshot := h.snapshot_advance fun snapshot hsame => (Phase.writing.inj hsame).symm
  order := h.order_advance hworker (by rw [hphase]; rfl)
  shared := h.shared

/-- The owner of the mutex writes the list back with its block: nobody has written since it
read the list, and nobody else has read it. -/
theorem Consistent.write (h : Consistent block jobs s) (hworker : s.workers[i]? = some worker)
    {snapshot : List α} (hphase : worker.phase = .writing snapshot) :
    Consistent block jobs
      { s.advance i worker .releasing with
        shared := snapshot ++ (block worker.job).getD []
        order := s.order ++ [worker.job] } where
  jobs := (jobs_set hworker).trans h.jobs
  owner := h.owner_advance hworker (by rw [hphase]; exact fun _ => rfl)
  snapshot := by
    intro j other copy hother hwriting
    rcases of_getElem_advance hother with ⟨_, rfl⟩ | ⟨hne, hold⟩
    · cases hwriting
    · -- two workers with a snapshot would both own the mutex
      exact absurd (h.sole hworker (by rw [hphase]; rfl) hold (by rw [hwriting]; rfl)) hne
  order := (h.order.append_right _).trans
    (written_set_perm hworker (by rw [hphase]; rfl) rfl)
  shared := by
    -- what was read is still the shared list, so writing it back loses nothing
    rw [h.snapshot i worker snapshot hworker hphase, h.shared, List.flatMap_append,
      List.flatMap_singleton]

/-- The owner of the mutex releases it. -/
theorem Consistent.unlock (h : Consistent block jobs s) (hworker : s.workers[i]? = some worker)
    (hphase : worker.phase = .releasing) :
    Consistent block jobs { s.advance i worker .finished with owner := none } where
  jobs := (jobs_set hworker).trans h.jobs
  owner := by
    intro j other hother hinside
    rcases of_getElem_advance hother with ⟨_, rfl⟩ | ⟨hne, hold⟩
    · cases hinside
    · exact absurd (h.sole hworker (by rw [hphase]; rfl) hold hinside) hne
  snapshot := h.snapshot_advance (by simp)
  order := h.order_advance hworker (by rw [hphase]; rfl)
  shared := h.shared

/-- Every step of every worker keeps the group consistent. -/
theorem Consistent.step (h : Consistent block jobs s)
    (hstep : LockedAppend.step block s i = some next) : Consistent block jobs next := by
  obtain ⟨worker, hworker, hstep⟩ := step_of_next hstep
  cases hstep with
  | skip hphase hblock => exact h.skip hworker hphase hblock
  | lock hphase howner => exact h.lock hworker hphase howner
  | read hphase => exact h.read hworker hphase
  | write snapshot hphase => exact h.write hworker hphase
  | unlock hphase => exact h.unlock hworker hphase

/-- When all workers have finished, the shared list is the concatenation of their blocks in the
order in which they got past the append, and that order has every job once. -/
theorem Consistent.shared_of_finished (h : Consistent block jobs s)
    (hfinished : s.allFinished = true) :
    s.order.Perm jobs ∧ s.shared = s.order.flatMap fun job => (block job).getD [] := by
  refine ⟨?_, h.shared⟩
  have hwritten : (s.workers.filter fun worker => worker.phase.written) = s.workers := by
    apply List.filter_eq_self.mpr
    intro worker hmem
    have hworker := List.all_eq_true.mp hfinished worker hmem
    simp only [Bool.and_eq_true] at hworker
    exact hworker.2
  have horder := h.order
  rw [hwritten, h.jobs] at horder
  exact horder

/-- The steps that a worker has left. -/
def Phase.left : Phase α → Nat
  | .working => 4
  | .holding => 3
  | .writing _ => 2
  | .releasing => 1
  | .finished => 0

/-- The steps that all workers have left. -/
def State.left (s : State ι α) : Nat :=
  (s.workers.map fun worker => worker.phase.left).sum

/-- A step moves one worker to a phase with fewer steps left, and does not touch the others. -/
theorem Step.advances (h : Step block s i worker next) :
    ∃ phase, next.workers = (s.advance i worker phase).workers ∧
      phase.left < worker.phase.left := by
  cases h with
  | skip hphase => exact ⟨.finished, rfl, by simp [hphase, Phase.left]⟩
  | lock hphase => exact ⟨.holding, rfl, by simp [hphase, Phase.left]⟩
  | read hphase => exact ⟨.writing s.shared, rfl, by simp [hphase, Phase.left]⟩
  | write snapshot hphase => exact ⟨.releasing, rfl, by simp [hphase, Phase.left]⟩
  | unlock hphase => exact ⟨.finished, rfl, by simp [hphase, Phase.left]⟩

/-- A step leaves fewer steps. -/
theorem Step.left_lt (h : Step block s i worker next) (hworker : s.workers[i]? = some worker) :
    next.left < s.left := by
  obtain ⟨phase, hworkers, hphase⟩ := h.advances
  obtain ⟨hlt, rfl⟩ := List.getElem?_eq_some_iff.mp hworker
  -- the workers before and after the one that moves are the same
  have hsplit := List.take_append_drop i s.workers
  rw [List.drop_eq_getElem_cons hlt] at hsplit
  have hbefore : s.left = ((s.workers.take i).map fun worker => worker.phase.left).sum +
      (s.workers[i].phase.left +
        ((s.workers.drop (i + 1)).map fun worker => worker.phase.left).sum) := by
    unfold State.left
    conv_lhs => rw [← hsplit]
    simp only [List.map_append, List.map_cons, List.sum_append, List.sum_cons]
  have hafter : next.left = ((s.workers.take i).map fun worker => worker.phase.left).sum +
      (phase.left + ((s.workers.drop (i + 1)).map fun worker => worker.phase.left).sum) := by
    unfold State.left
    rw [hworkers, State.advance, List.set_eq_take_append_cons_drop, if_pos hlt]
    simp only [List.map_append, List.map_cons, List.sum_append, List.sum_cons]
  omega

theorem addAll_spawn (jobs : List ι) : (State.spawn [] : State ι α).addAll jobs = .spawn jobs :=
  rfl

theorem addAll_nil (s : State ι α) : s.addAll [] = s := by
  simp [State.addAll]

theorem addAll_addAll (s : State ι α) (jobs more : List ι) :
    (s.addAll jobs).addAll more = s.addAll (jobs ++ more) := by
  simp [State.addAll]

/-- A worker is not disturbed by workers that are added. -/
theorem step_addAll (jobs : List ι) (h : step block s i = some next) :
    step block (s.addAll jobs) i = some (next.addAll jobs) := by
  obtain ⟨worker, hworker, -⟩ := step_of_next h
  obtain ⟨hi, -⟩ := List.getElem?_eq_some_iff.mp hworker
  have hsame : (s.addAll jobs).workers[i]? = some worker := by
    rw [← hworker, State.addAll, List.getElem?_append_left hi]
  have hset : ∀ moved : Worker ι α, (s.addAll jobs).workers.set i moved =
      s.workers.set i moved ++ jobs.map fun job => ⟨job, .working⟩ :=
    fun moved => List.set_append_left _ _ hi
  unfold step at h ⊢
  rw [hworker] at h
  rw [hsame]
  cases hphase : worker.phase with
  | working =>
      simp only [hphase, Option.bind_eq_bind, Option.bind_some] at h ⊢
      cases hblock : block worker.job with
      | none =>
          simp only [hblock] at h ⊢
          cases h
          rw [State.advance, hset]
          rfl
      | some items =>
          simp only [hblock] at h ⊢
          split at h <;> cases h
          rename_i howner
          have howner' : (s.addAll jobs).owner = none := howner
          rw [if_pos howner', State.advance, hset]
          rfl
  | holding | writing snapshot | releasing =>
      simp only [hphase, Option.bind_eq_bind, Option.bind_some] at h ⊢
      cases h
      rw [State.advance, hset]
      rfl
  | finished =>
      simp only [hphase, Option.bind_eq_bind, Option.bind_some] at h
      cases h

/-- The mutex is not left taken: its owner is between taking and releasing it. -/
def Held (s : State ι α) : Prop :=
  ∀ i, s.owner = some i →
    ∃ worker, s.workers[i]? = some worker ∧ worker.phase.inside = true

theorem held_spawn (jobs : List ι) : Held (.spawn jobs : State ι α) := by
  intro i howner
  cases howner

/-- The worker at another position is not touched by a move. -/
theorem getElem_advance_of_ne {phase : Phase α} {j : Nat} (hne : j ≠ i) :
    (s.advance i worker phase).workers[j]? = s.workers[j]? := by
  rw [State.advance, List.getElem?_set_ne (Ne.symm hne)]

theorem getElem_advance_self {phase : Phase α} (hworker : s.workers[i]? = some worker) :
    (s.advance i worker phase).workers[i]? = some { worker with phase } := by
  obtain ⟨hlt, -⟩ := List.getElem?_eq_some_iff.mp hworker
  rw [State.advance, List.getElem?_set_self hlt]

/-- A move of a worker that keeps it inside, or that was not inside before, leaves the mutex with
its owner. -/
theorem Held.advance (h : Held s) (hworker : s.workers[i]? = some worker) {phase : Phase α}
    (hphase : worker.phase.inside = true → phase.inside = true) :
    Held (s.advance i worker phase) := by
  intro j howner
  obtain ⟨other, hother, hinside⟩ := h j howner
  by_cases heq : j = i
  · subst heq
    obtain rfl : worker = other := Option.some.inj (hworker.symm.trans hother)
    exact ⟨_, getElem_advance_self hworker, hphase hinside⟩
  · exact ⟨other, (getElem_advance_of_ne heq).trans hother, hinside⟩

theorem Held.step (h : Held s) (hstep : LockedAppend.step block s i = some next) :
    Held next := by
  obtain ⟨worker, hworker, hstep⟩ := step_of_next hstep
  cases hstep with
  | skip hphase => exact h.advance hworker (by simp [hphase, Phase.inside])
  | lock hphase howner =>
      intro j howner'
      obtain rfl : i = j := Option.some.inj howner'
      exact ⟨_, getElem_advance_self hworker, rfl⟩
  | read hphase => exact h.advance hworker fun _ => rfl
  | write snapshot hphase => exact h.advance hworker fun _ => rfl
  | unlock hphase =>
      intro j howner
      cases howner

/-- As long as a worker has not finished, one of them can make a step. -/
theorem exists_step (h : Held s) (block : ι → Option (List α)) (hleft : s.allFinished = false) :
    ∃ i next, LockedAppend.step block s i = some next := by
  -- a worker inside can always go on, and one at its start if it can take the mutex
  have hinside : ∀ i worker, s.workers[i]? = some worker → worker.phase.inside = true →
      ∃ next, LockedAppend.step block s i = some next := by
    intro i worker hworker hphase
    unfold LockedAppend.step
    rw [hworker]
    cases hcase : worker.phase with
    | working => simp [hcase, Phase.inside] at hphase
    | finished => simp [hcase, Phase.inside] at hphase
    | holding => exact ⟨_, by simp [hcase]; rfl⟩
    | writing snapshot => exact ⟨_, by simp [hcase]; rfl⟩
    | releasing => exact ⟨_, by simp [hcase]; rfl⟩
  cases howner : s.owner with
  | some i =>
      obtain ⟨worker, hworker, hphase⟩ := h i howner
      exact ⟨i, hinside i worker hworker hphase⟩
  | none =>
      obtain ⟨worker, hmem, hunfinished⟩ := List.all_eq_false.mp hleft
      obtain ⟨i, hworker⟩ := List.mem_iff_getElem?.mp hmem
      refine ⟨i, ?_⟩
      by_cases hphase : worker.phase.inside = true
      · exact hinside i worker hworker hphase
      · unfold LockedAppend.step
        rw [hworker]
        cases hcase : worker.phase with
        | working =>
            cases hblock : block worker.job with
            | none => exact ⟨_, by simp [hcase, hblock]; rfl⟩
            | some items => exact ⟨_, by simp [hcase, hblock, howner]; rfl⟩
        | finished => simp [hcase, Phase.inside, Phase.written] at hunfinished
        | holding => simp [hcase, Phase.inside] at hphase
        | writing snapshot => simp [hcase, Phase.inside] at hphase
        | releasing => simp [hcase, Phase.inside] at hphase

end Transition.LockedAppend
