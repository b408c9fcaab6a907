import AiGramLib.Library.Rest
import AiGramLib.Processor.Handshake

/-!
# `process` returns with all responses

If each handshake goes as `awaited` says, `process` returns, and with the responses to all messages
(`process_returns_all`): a `main` that has returned has waited for its callback to the end, and a
callback that has come to its deferred block has appended what it had. If a handshake goes
otherwise, `process` can return without some responses (`process_returns_early`).
-/

namespace AiGramLib.BotProcessor.Handshake

open Transition InterpreterOperation

variable {Score : Type} [Zero Score] [One Score] [LE Score] [DecidableLE Score]

/-- How the handshake of an operation stands to what else there is of the operation. -/
structure Joined (answer : Option (List BotResponse)) (runs : List (Operation × List Score))
    (worker : LockedAppend.Worker Operation BotResponse) (operation : InterpreterOperation.State) :
    Prop where
  phase : Phase answer operation
  /-- The first statement of `main` is the run. -/
  run : worker.job ∈ runs.map Prod.fst ↔ operation.main ≠ .run
  /-- After the body of the callback the responses are in the list. -/
  finished : operation.callback ≠ .absent → operation.callback ≠ .body → worker.phase = .finished

/-- What holds under every schedule in which the handshakes go as they should. -/
structure Waited (tagger : LinguisticTagger) (threshold : Score) (bot : ChatBot)
    (interpreter : List Score → Option (List.Vector Score bot.responses.length))
    (messages : List Message) (s : State Score) : Prop where
  ran : Ran tagger threshold bot interpreter messages s.process
  length : s.operations.length = s.process.group.workers.length
  joined : ∀ (i : Nat) worker operation, s.process.group.workers[i]? = some worker →
    s.operations[i]? = some operation →
      Joined (operationBlock threshold bot interpreter worker.job) s.process.runs worker operation

variable {tagger : LinguisticTagger} {threshold : Score} {bot : ChatBot}
  {interpreter : List Score → Option (List.Vector Score bot.responses.length)}
  {messages : List Message} {s t : State Score} {i : Nat}

theorem waited_start :
    Waited tagger threshold bot interpreter messages
      (machine tagger threshold bot interpreter messages).start where
  ran := ran_start
  length := by simp [machine, process, LockedAppend.State.spawn]
  joined := by
    intro i worker operation hworker hoperation
    simp only [machine, List.getElem?_map, Option.map_eq_some_iff] at hoperation
    obtain ⟨-, -, rfl⟩ := hoperation
    have hfresh : worker.job ∉ ((machine tagger threshold bot interpreter
        messages).start.process.runs.map Prod.fst) := by simp [machine, process]
    exact ⟨.start, ⟨fun hrun => absurd hrun hfresh, fun hmain => absurd rfl hmain⟩,
      fun habsent => absurd rfl habsent⟩

/-- Two operations of the queue have different jobs. -/
theorem Waited.index_eq (h : Waited tagger threshold bot interpreter messages s) {j : Nat}
    {worker other : LockedAppend.Worker Operation BotResponse}
    (hworker : s.process.group.workers[i]? = some worker)
    (hother : s.process.group.workers[j]? = some other) (hjob : other.job = worker.job) :
    j = i := by
  have hnodup := nodup_operations tagger messages
  rw [← h.ran.consistent.jobs] at hnodup
  obtain ⟨hj, -⟩ := List.getElem?_eq_some_iff.mp hother
  refine (List.getElem?_inj (by simpa using hj) hnodup).mp ?_
  rw [List.getElem?_map, List.getElem?_map, hworker, hother, Option.map_some, Option.map_some,
    hjob]

/-- `main` of an operation goes on. -/
theorem Waited.main (h : Waited tagger threshold bot interpreter messages s)
    (hnext : mainStep bot s i = some t) : Waited tagger threshold bot interpreter messages t := by
  obtain ⟨operation, hoperation, hnext⟩ := Option.bind_eq_some_iff.mp hnext
  obtain ⟨moved, hmoved, hnext⟩ := Option.bind_eq_some_iff.mp hnext
  obtain ⟨hi, -⟩ := List.getElem?_eq_some_iff.mp hoperation
  rcases main_step_effect hmoved with ⟨hmain, hmoved'⟩ | ⟨hmain, main, lock, hmoved', hne, -⟩
  · -- the run of the interpreter is recorded, and no other operation is for the same message
    simp only [hmain] at hnext
    obtain ⟨after, hafter, hnext⟩ := Option.bind_eq_some_iff.mp hnext
    cases hnext
    have hran := h.ran.main hafter
    obtain ⟨worker, hworker, hafter⟩ := Option.bind_eq_some_iff.mp hafter
    split at hafter <;> cases hafter
    refine ⟨hran, by simpa using h.length, fun j other handshake hother hhandshake => ?_⟩
    have hjobs : other.job ∈ (s.process.runs ++ [(worker.job, prepareInput bot
        worker.job.wordsToProcess)]).map Prod.fst ↔
        other.job ∈ s.process.runs.map Prod.fst ∨ other.job = worker.job := by
      rw [List.map_append, List.mem_append, List.map_singleton, List.mem_singleton]
    by_cases hij : j = i
    · subst hij
      obtain rfl : worker = other := Option.some.inj (hworker.symm.trans hother)
      obtain rfl : moved = handshake := by simpa [hi] using hhandshake
      refine ⟨(h.joined _ _ _ hworker hoperation).phase.main_step hmoved,
        hjobs.trans ⟨fun _ => by rw [hmoved']; exact MainPoint.noConfusion, fun _ => .inr rfl⟩,
        fun _ hbody => ?_⟩
      rw [hmoved'] at hbody
      exact absurd rfl hbody
    · have hold : s.operations[j]? = some handshake := by
        simpa [List.getElem?_set_ne (Ne.symm hij)] using hhandshake
      have hjoined := h.joined j other handshake hother hold
      refine ⟨hjoined.phase, hjobs.trans ?_, hjoined.finished⟩
      rw [← hjoined.run, or_iff_left_iff_imp]
      exact fun hjob => absurd (h.index_eq hworker hother hjob) hij
  · split at hnext
    · exact absurd ‹_› hmain
    cases hnext
    refine ⟨h.ran, by simpa using h.length, fun j other handshake hother hhandshake => ?_⟩
    by_cases hij : j = i
    · subst hij
      obtain rfl : moved = handshake := by simpa [hi] using hhandshake
      have hjoined := h.joined _ _ _ hother hoperation
      refine ⟨hjoined.phase.main_step hmoved, hjoined.run.trans ?_, ?_⟩
      · rw [hmoved']
        exact ⟨fun _ => hne, fun _ => hmain⟩
      · rw [hmoved']
        exact hjoined.finished
    · have hold : s.operations[j]? = some handshake := by
        simpa [List.getElem?_set_ne (Ne.symm hij)] using hhandshake
      exact h.joined j other handshake hother hold

/-- A step of the computations, or of `completion`, moves one worker of the group. -/
theorem callback_step_advances {before after : BotProcessor.State Score}
    (h : BotProcessor.callbackStep threshold bot interpreter before i = some after) :
    ∃ worker phase, before.group.workers[i]? = some worker ∧ after.runs = before.runs ∧
      after.group.workers = (before.group.advance i worker phase).workers ∧
      after.group.left < before.group.left := by
  obtain ⟨worker, hworker, h⟩ := Option.bind_eq_some_iff.mp h
  split at h
  · rw [completion_argument_eq] at h
    obtain ⟨group, hstep, h⟩ := Option.bind_eq_some_iff.mp h
    cases h
    obtain ⟨moved, hmoved, hstep⟩ := LockedAppend.step_of_next hstep
    obtain ⟨phase, hworkers, -⟩ := hstep.advances
    exact ⟨moved, phase, hmoved, rfl, hworkers, hstep.left_lt hmoved⟩
  · cases h

/-- The callback of an operation goes on. -/
theorem Waited.callback (h : Waited tagger threshold bot interpreter messages s)
    (hok : awaited s (.callback i) = true)
    (hnext : callbackStep threshold bot interpreter s i = some t) :
    Waited tagger threshold bot interpreter messages t := by
  obtain ⟨operation, hoperation, hnext⟩ := Option.bind_eq_some_iff.mp hnext
  obtain ⟨worker, hworker, hnext⟩ := Option.bind_eq_some_iff.mp hnext
  obtain ⟨hi, -⟩ := List.getElem?_eq_some_iff.mp hoperation
  split at hnext
  · -- the body of the callback: the handshake is as it was
    rename_i hbody
    obtain ⟨after, hafter, hnext⟩ := Option.bind_eq_some_iff.mp hnext
    cases hnext
    obtain ⟨moved, phase, hmoved, hruns, hworkers, -⟩ := callback_step_advances hafter
    refine ⟨h.ran.callback hafter, ?_, fun j other handshake hother hhandshake => ?_⟩
    · rw [hworkers, LockedAppend.State.advance, List.length_set]
      exact h.length
    · rw [hworkers] at hother
      rw [hruns]
      rcases LockedAppend.of_getElem_advance hother with ⟨rfl, rfl⟩ | ⟨-, hold⟩
      · obtain rfl : operation = handshake := Option.some.inj (hoperation.symm.trans hhandshake)
        have hjoined := h.joined j moved operation hmoved hoperation
        exact ⟨hjoined.phase, hjoined.run, fun _ hne => absurd hbody.1 hne⟩
      · exact h.joined j other handshake hold hhandshake
  · -- what the callback has deferred
    rename_i hdone
    obtain ⟨moved, hmoved, hnext⟩ := Option.bind_eq_some_iff.mp hnext
    cases hnext
    refine ⟨h.ran, by simpa using h.length, fun j other handshake hother hhandshake => ?_⟩
    by_cases hij : j = i
    · subst hij
      obtain rfl : worker = other := Option.some.inj (hworker.symm.trans hother)
      obtain rfl : moved = handshake := by simpa [hi] using hhandshake
      have hjoined := h.joined j worker operation hworker hoperation
      have hawaited : InterpreterOperation.awaited operation .callback = true := by
        simpa [awaited, hoperation] using hok
      refine ⟨hjoined.phase.callback_step hawaited hmoved, ?_, fun _ _ => ?_⟩
      · obtain ⟨-, callback, lock, completed, rfl, -⟩ := callback_step_effect hmoved
        exact hjoined.run
      · by_cases hbody : operation.callback = .body
        · by_contra hunfinished
          exact hdone ⟨hbody, hunfinished⟩
        · exact hjoined.finished (callback_step_effect hmoved).1 hbody
    · have hold : s.operations[j]? = some handshake := by
        simpa [List.getElem?_set_ne (Ne.symm hij)] using hhandshake
      exact h.joined j other handshake hother hold

/-- A wait of an operation returns by itself. -/
theorem Waited.spuriousWakeup (h : Waited tagger threshold bot interpreter messages s)
    (hok : awaited s (.spuriousWakeup i) = true)
    (hnext : Handshake.spuriousWakeup s i = some t) :
    Waited tagger threshold bot interpreter messages t := by
  obtain ⟨operation, hoperation, hnext⟩ := Option.bind_eq_some_iff.mp hnext
  obtain ⟨lock, hlock, hnext⟩ := Option.bind_eq_some_iff.mp hnext
  cases hnext
  obtain ⟨hi, -⟩ := List.getElem?_eq_some_iff.mp hoperation
  refine ⟨h.ran, by simpa using h.length, fun j other handshake hother hhandshake => ?_⟩
  by_cases hij : j = i
  · subst hij
    obtain rfl : { operation with lock } = handshake := by simpa [hi] using hhandshake
    have hjoined := h.joined j other operation hother hoperation
    have hawaited : InterpreterOperation.awaited operation .spuriousWakeup = true := by
      simpa [awaited, hoperation] using hok
    exact ⟨hjoined.phase.wakeup_step hawaited (Option.bind_eq_some_iff.mpr ⟨lock, hlock, rfl⟩),
      hjoined.run, hjoined.finished⟩
  · have hold : s.operations[j]? = some handshake := by
      simpa [List.getElem?_set_ne (Ne.symm hij)] using hhandshake
    exact h.joined j other handshake hother hold

theorem Waited.step {action : Action} (h : Waited tagger threshold bot interpreter messages s)
    (hok : awaited s action = true)
    (hnext : (machine tagger threshold bot interpreter messages).next s action = some t) :
    Waited tagger threshold bot interpreter messages t := by
  cases action with
  | main i => exact h.main hnext
  | callback i => exact h.callback hok hnext
  | spuriousWakeup i => exact h.spuriousWakeup hok hnext

/-- The steps that the operations have left at most. -/
def State.workLeft (s : State Score) : Nat :=
  (s.operations.map left).sum + s.process.group.left

theorem work_left_lt {action : Action}
    (hnext : (machine tagger threshold bot interpreter messages).next s action = some t) :
    t.workLeft < s.workLeft := by
  have hset : ∀ {i : Nat} {operation moved : InterpreterOperation.State},
      s.operations[i]? = some operation → left moved < left operation →
      ((s.operations.set i moved).map left).sum < (s.operations.map left).sum := by
    intro i operation moved hoperation hless
    have hsum := Machine.sum_map_set left hoperation moved
    omega
  cases action with
  | main i =>
      obtain ⟨operation, hoperation, hnext⟩ := Option.bind_eq_some_iff.mp hnext
      obtain ⟨moved, hmoved, hnext⟩ := Option.bind_eq_some_iff.mp hnext
      have hless := hset hoperation (left_main_step hmoved)
      split at hnext
      · obtain ⟨after, hafter, hnext⟩ := Option.bind_eq_some_iff.mp hnext
        cases hnext
        obtain ⟨worker, -, hafter⟩ := Option.bind_eq_some_iff.mp hafter
        split at hafter <;> cases hafter
        exact Nat.add_lt_add_right hless _
      · cases hnext
        exact Nat.add_lt_add_right hless _
  | callback i =>
      obtain ⟨operation, hoperation, hnext⟩ := Option.bind_eq_some_iff.mp hnext
      obtain ⟨worker, hworker, hnext⟩ := Option.bind_eq_some_iff.mp hnext
      split at hnext
      · obtain ⟨after, hafter, hnext⟩ := Option.bind_eq_some_iff.mp hnext
        cases hnext
        obtain ⟨-, -, -, -, -, hless⟩ := callback_step_advances hafter
        exact Nat.add_lt_add_left hless _
      · obtain ⟨moved, hmoved, hnext⟩ := Option.bind_eq_some_iff.mp hnext
        cases hnext
        exact Nat.add_lt_add_right (hset hoperation (left_callback_step hmoved)) _
  | spuriousWakeup i =>
      obtain ⟨operation, hoperation, hnext⟩ := Option.bind_eq_some_iff.mp hnext
      obtain ⟨lock, hlock, hnext⟩ := Option.bind_eq_some_iff.mp hnext
      cases hnext
      have hwaiting := length_waiting_wake hlock
      refine Nat.add_lt_add_right (hset hoperation ?_) _
      simp only [left]
      omega

/-- A `main` that can go on by itself can do so here. -/
theorem Waited.exists_main (h : Waited tagger threshold bot interpreter messages s)
    {worker : LockedAppend.Worker Operation BotResponse}
    {operation moved : InterpreterOperation.State}
    (hworker : s.process.group.workers[i]? = some worker)
    (hoperation : s.operations[i]? = some operation)
    (hmoved : InterpreterOperation.mainStep operation = some moved) :
    ∃ t, mainStep bot s i = some t := by
  unfold mainStep
  simp only [hoperation, Option.bind_eq_bind, Option.bind_some, hmoved]
  split
  · rename_i hmain
    have hfresh : worker.job ∉ s.process.runs.map Prod.fst := fun hrun =>
      (h.joined i worker operation hworker hoperation).run.mp hrun hmain
    simp only [BotProcessor.mainStep, hworker, Option.bind_eq_bind, Option.bind_some,
      if_neg hfresh]
    exact ⟨_, rfl⟩
  · exact ⟨_, rfl⟩

/-- So can a callback that has called `completion`. -/
theorem exists_deferred {worker : LockedAppend.Worker Operation BotResponse}
    {operation moved : InterpreterOperation.State}
    (hworker : s.process.group.workers[i]? = some worker)
    (hoperation : s.operations[i]? = some operation) (hfinished : worker.phase = .finished)
    (hmoved : InterpreterOperation.callbackStep
      (operationBlock threshold bot interpreter worker.job) operation = some moved) :
    ∃ t, callbackStep threshold bot interpreter s i = some t := by
  unfold callbackStep
  simp only [hoperation, hworker, Option.bind_eq_bind, Option.bind_some, hfinished, ne_eq,
    not_true_eq_false, and_false, if_false, hmoved]
  exact ⟨_, rfl⟩

/-- While responses are missing, a callback can compute, or a `main` can start one. -/
theorem Waited.exists_missing (h : Waited tagger threshold bot interpreter messages s)
    (hleft : s.process.group.allFinished = false) :
    ∃ action t, awaited s action = true ∧
      (machine tagger threshold bot interpreter messages).next s action = some t := by
  obtain ⟨i, group, hgroup⟩ :=
    LockedAppend.exists_step h.ran.held (operationBlock threshold bot interpreter) hleft
  obtain ⟨worker, hworker, hstep⟩ := LockedAppend.step_of_next hgroup
  have hunfinished : worker.phase ≠ .finished := by
    obtain ⟨phase, -, hless⟩ := hstep.advances
    intro hfinished
    rw [hfinished] at hless
    exact absurd hless (Nat.not_lt_zero _)
  obtain ⟨hi, -⟩ := List.getElem?_eq_some_iff.mp hworker
  obtain ⟨operation, hoperation⟩ : ∃ operation, s.operations[i]? = some operation :=
    ⟨_, List.getElem?_eq_getElem (h.length ▸ hi)⟩
  have hjoined := h.joined i worker operation hworker hoperation
  by_cases hbody : operation.callback = .body
  · refine ⟨.callback i, { s with process := { s.process with group } }, ?_, ?_⟩
    · simp [awaited, hoperation, InterpreterOperation.awaited, hbody]
    · have hrun : worker.job ∈ s.process.runs.map Prod.fst := by
        refine hjoined.run.mpr fun hmain => ?_
        have hphase := hjoined.phase
        cases hphase with
        | start => cases hbody
        | _ => cases hmain
      simp only [machine, callbackStep, hoperation, hworker, Option.bind_eq_bind,
        Option.bind_some, if_pos (And.intro hbody hunfinished), BotProcessor.callbackStep,
        if_pos hrun, completion_argument_eq, hgroup]
  · have habsent : operation.callback = .absent := by
      by_contra habsent
      exact hunfinished (hjoined.finished habsent hbody)
    have hmain : ∃ moved, InterpreterOperation.mainStep operation = some moved := by
      have hphase := hjoined.phase
      cases hphase with
      | start => exact ⟨_, rfl⟩
      | taking hbefore => cases hbefore <;> cases habsent
      | holding hbefore => cases hbefore <;> cases habsent
      | asleep hbefore => cases hbefore <;> cases habsent
      | _ => cases habsent
    obtain ⟨moved, hmoved⟩ := hmain
    obtain ⟨t, hnext⟩ := h.exists_main hworker hoperation hmoved
    exact ⟨.main i, t, rfl, hnext⟩

/-- When all responses are there, a handshake that has not ended can go on. -/
theorem Waited.exists_ending (h : Waited tagger threshold bot interpreter messages s)
    {worker : LockedAppend.Worker Operation BotResponse} {operation : InterpreterOperation.State}
    (hworker : s.process.group.workers[i]? = some worker)
    (hoperation : s.operations[i]? = some operation) (hfinished : worker.phase = .finished)
    (hmain : operation.main ≠ .returned) :
    ∃ action t, awaited s action = true ∧
      (machine tagger threshold bot interpreter messages).next s action = some t := by
  have hgoes : (∃ moved, InterpreterOperation.mainStep operation = some moved) ∨
      InterpreterOperation.awaited operation .callback = true ∧
        ∃ moved, InterpreterOperation.callbackStep
          (operationBlock threshold bot interpreter worker.job) operation = some moved := by
    have hphase := (h.joined i worker operation hworker hoperation).phase
    cases hphase with
    | start => exact .inl ⟨_, rfl⟩
    | taking => exact .inl ⟨_, rfl⟩
    | holding => exact .inl ⟨_, rfl⟩
    | asleep hbefore =>
        -- `main` sleeps until the callback wakes it
        cases hbefore with
        | body => exact .inr ⟨rfl, _, rfl⟩
        | lock => exact .inr ⟨rfl, _, rfl⟩
    | signalling => exact .inr ⟨rfl, _, rfl⟩
    | needless => exact .inr ⟨rfl, _, rfl⟩
    | signalled => exact .inr ⟨rfl, _, rfl⟩
    | woken => exact .inl ⟨_, rfl⟩
    | unlocking => exact .inl ⟨_, rfl⟩
    | returned => exact absurd rfl hmain
  rcases hgoes with ⟨moved, hmoved⟩ | ⟨hawaited, moved, hmoved⟩
  · obtain ⟨t, hnext⟩ := h.exists_main hworker hoperation hmoved
    exact ⟨.main i, t, rfl, hnext⟩
  · obtain ⟨t, hnext⟩ := exists_deferred hworker hoperation hfinished hmoved
    exact ⟨.callback i, t, by simpa [awaited, hoperation] using hawaited, hnext⟩

/-- Until `process` returns, an operation can go on. -/
theorem Waited.exists_step (h : Waited tagger threshold bot interpreter messages s)
    (hleft : (returned bot s).isSome ≠ true) :
    ∃ action t, awaited s action = true ∧
      (machine tagger threshold bot interpreter messages).next s action = some t := by
  cases hgroup : s.process.group.allFinished with
  | false => exact h.exists_missing hgroup
  | true =>
      have hunreturned : ¬ s.operations.all (fun operation => operation.main == .returned) :=
        fun hall => hleft (by simp [returned, hall])
      obtain ⟨operation, hmem, hmain⟩ : ∃ operation ∈ s.operations,
          operation.main ≠ .returned := by simpa using hunreturned
      obtain ⟨i, hoperation⟩ := List.mem_iff_getElem?.mp hmem
      obtain ⟨hi, -⟩ := List.getElem?_eq_some_iff.mp hoperation
      obtain ⟨worker, hworker⟩ : ∃ worker, s.process.group.workers[i]? = some worker :=
        ⟨_, List.getElem?_eq_getElem (h.length ▸ hi)⟩
      have hfinished : worker.phase = .finished := by
        have hended := List.all_eq_true.mp hgroup worker (List.mem_of_getElem? hworker)
        cases hphase : worker.phase <;> simp_all [LockedAppend.Phase.inside,
          LockedAppend.Phase.written]
      exact h.exists_ending hworker hoperation hfinished hmain

/-- When every `main` has returned, every operation has appended its responses. -/
theorem Waited.all_finished (h : Waited tagger threshold bot interpreter messages s)
    (hreturned : ∀ operation ∈ s.operations, operation.main = .returned) :
    s.process.group.allFinished = true := by
  refine List.all_eq_true.mpr fun worker hworker => ?_
  obtain ⟨i, hworker⟩ := List.mem_iff_getElem?.mp hworker
  obtain ⟨hi, -⟩ := List.getElem?_eq_some_iff.mp hworker
  obtain ⟨operation, hoperation⟩ : ∃ operation, s.operations[i]? = some operation :=
    ⟨_, List.getElem?_eq_getElem (h.length ▸ hi)⟩
  have hjoined := h.joined i worker operation hworker hoperation
  have hmain := hreturned operation (List.mem_of_getElem? hoperation)
  have hended : operation.callback = .finished := by
    have hphase := hjoined.phase
    cases hphase with
    | returned => rfl
    | _ => cases hmain
  have hfinished : worker.phase = .finished :=
    hjoined.finished (by rw [hended]; exact CallbackPoint.noConfusion)
      (by rw [hended]; exact CallbackPoint.noConfusion)
  rw [hfinished]
  rfl

/-- What `process` returns is what all operations have appended. -/
theorem Waited.result (h : Waited tagger threshold bot interpreter messages s)
    {result : ChatBotResult} (hresult : returned bot s = some result) :
    (s.process.runs.map fun run => (run.1.number, run.2)).Perm
      ((List.finRange messages.length).map fun i =>
        (i.val, bagOfWords bot.words (words tagger (messages.get i)))) ∧
    result.bot = bot ∧
    ∃ order : List (Fin messages.length),
      order.Perm (List.finRange messages.length) ∧
      order.map Fin.val = s.process.group.order.map Operation.number ∧
      result.responses = order.flatMap fun i =>
        classify threshold bot interpreter (words tagger (messages.get i)) := by
  unfold returned at hresult
  split at hresult
  · rename_i hall
    obtain rfl := Option.some.inj hresult
    obtain ⟨hruns, hresponses⟩ := h.ran.responses (h.all_finished (by simpa using hall))
    exact ⟨hruns, rfl, hresponses⟩
  · cases hresult

/-- The operations settle when `process` returns. -/
theorem settles (tagger : LinguisticTagger) (threshold : Score) (bot : ChatBot)
    (interpreter : List Score → Option (List.Vector Score bot.responses.length))
    (messages : List Message) :
    ((machine tagger threshold bot interpreter messages).restrict awaited).Settles
      (fun _ => true) (Waited tagger threshold bot interpreter messages) State.workLeft
      fun t => (returned bot t).isSome = true where
  keeps := by
    intro state action following hstate _ hnext
    obtain ⟨hok, hnext⟩ := Machine.restrict_next_eq_some.mp hnext
    exact hstate.step hok hnext
  lowers := fun _ _ hnext => work_left_lt (Machine.restrict_next_eq_some.mp hnext).2
  goes_on := by
    intro state hstate hleft
    obtain ⟨action, following, hok, hnext⟩ := hstate.exists_step hleft
    exact ⟨action, following, rfl, Machine.restrict_next_eq_some.mpr ⟨hok, hnext⟩⟩

theorem waited_of_reachable
    (h : ((machine tagger threshold bot interpreter messages).restrict awaited).Reachable s) :
    Waited tagger threshold bot interpreter messages s :=
  h.restrict_induction waited_start fun _ _ _ _ hstate hok hnext => hstate.step hok hnext

/-- A message of characters that are one scalar each. -/
def letters (message : List Char) : Message :=
  message.map fun char => ⟨[char], List.cons_ne_nil _ _⟩

def bye : Message := letters ['b', 'y', 'e']

/-- After a wake-up without a signal, `process` returns without the response to its message. -/
theorem process_returns_early :
    ∃ s : State Nat, (machine spaceTagger 9 greeter greeting [bye]).Reachable s ∧
      returned greeter s = some ⟨greeter, []⟩ ∧
      classify 9 greeter greeting (words spaceTagger bye) = [⟨["so long"], "farewell"⟩] :=
  ⟨_, ⟨[.main 0, .main 0, .main 0, .spuriousWakeup 0, .main 0, .main 0], rfl⟩, by decide,
    by decide⟩

end AiGramLib.BotProcessor.Handshake
