import Mathlib.Data.Vector.Basic
import AiGramLib.Library.LockedAppend
import AiGramLib.Library.Machine
import AiGramLib.Processor.Callback
import AiGramLib.Processor.Words

/-!
# `process`: from messages to responses

`process` makes an operation of every message and waits for all of them. An operation turns the
words of its message into a vector over the vocabulary of the bot and runs the interpreter on
it; the callback appends the responses for the scores from the threshold on to a list that all
operations share, with a lock around the append. The operations of the queue run side by side: a
schedule is a list of the positions of those that go on. `process_responses` says what comes
out, with `classify` for the responses to one message, both without the loops of the code.

The interpreter is any function to a vector with a score for each response, or to an error.
-/

namespace AiGramLib.BotProcessor

open Transition InterpreterOperation

/-- An `InterpreterOperation`, with its place in `operations`. -/
structure Operation where
  number : Nat
  wordsToProcess : List String
  deriving DecidableEq, Repr

/-- The operations that `process` adds to its queue. -/
def operations (tagger : LinguisticTagger) (messages : List Message) : List Operation :=
  messages.zipIdx.map fun (message, number) => ⟨number, words tagger message⟩

variable {Score : Type}

/-- The local variables of `process`, as far as the operations use them. -/
structure State (Score : Type) where
  /-- What the interpreter has been run on, and by which operation. -/
  runs : List (Operation × List Score)
  /-- The operations with `lock` and `responses`. -/
  group : LockedAppend.State Operation BotResponse

inductive Action where
  /-- The operation at a position is executed up to its `lock.wait()`. -/
  | main (i : Nat)
  /-- The callback of the operation at a position goes on. -/
  | callback (i : Nat)
  deriving DecidableEq, Repr

/-- What the callback of a run is called with: the output at index 0 is an array with the scores
in it. -/
def runResult {n : Nat} : Option (List.Vector Score n) → RunResult Score
  | none => .failed
  | some scores => .output (.array [.array (scores.toList.map .score)])

/-- What `process` returns, when all operations have finished. -/
def returned (bot : ChatBot) (s : State Score) : Option ChatBotResult :=
  if s.group.allFinished then some { bot, responses := s.group.shared } else none

variable [Zero Score] [One Score]

/-- `prepareInput(_:)`; a set has its words up to `==`. -/
def prepareInput (bot : ChatBot) (words : List String) : List Score :=
  (List.range bot.words.length).foldl
    (fun result index =>
      if bot.words[index]?.any words.contains then result.set index 1 else result)
    (List.replicate bot.words.length 0)

/-- `main` of the operation at a position. -/
def mainStep (bot : ChatBot) (s : State Score) (i : Nat) : Option (State Score) := do
  let worker ← s.group.workers[i]?
  -- the queue executes an operation once
  if worker.job ∈ s.runs.map Prod.fst then none
  else
    let input := prepareInput bot worker.job.wordsToProcess
    some { s with runs := s.runs ++ [(worker.job, input)] }

/-- For every word of a vocabulary, whether it is one of the words. -/
def bagOfWords (vocabulary words : List String) : List Score :=
  vocabulary.map fun word => if word ∈ words then 1 else 0

variable [LE Score] [DecidableLE Score]

/-- What the callback of an operation calls `completion` with, if it does. -/
def completionArgument (threshold : Score) (bot : ChatBot)
    (interpreter : List Score → Option (List.Vector Score bot.responses.length))
    (operation : Operation) : Except OutOfRange (Option (List BotResponse)) :=
  callbackBody threshold bot
    (runResult (interpreter (prepareInput bot operation.wordsToProcess)))

/-- The block that an operation appends to `responses`, if any. -/
def operationBlock (threshold : Score) (bot : ChatBot)
    (interpreter : List Score → Option (List.Vector Score bot.responses.length))
    (operation : Operation) : Option (List BotResponse) :=
  (completionArgument threshold bot interpreter operation).toOption.join

/-- The next step of the callback of the operation at a position: of its computations, or of
`completion`. -/
def callbackStep (threshold : Score) (bot : ChatBot)
    (interpreter : List Score → Option (List.Vector Score bot.responses.length))
    (s : State Score) (i : Nat) : Option (State Score) := do
  let worker ← s.group.workers[i]?
  if worker.job ∈ s.runs.map Prod.fst then
    match completionArgument threshold bot interpreter worker.job with
    | .ok _ => do
        let group ← LockedAppend.step (operationBlock threshold bot interpreter) s.group i
        some { s with group }
    -- an access out of range ends the app
    | .error _ => none
  else none

/-- `process(messages:)` -/
def process (tagger : LinguisticTagger) (threshold : Score) (bot : ChatBot)
    (interpreter : List Score → Option (List.Vector Score bot.responses.length))
    (messages : List Message) : Machine (State Score) Action where
  start := { runs := [], group := .spawn (operations tagger messages) }
  next s
    | .main i => mainStep bot s i
    | .callback i => callbackStep threshold bot interpreter s i

/-- The responses to a message with these words: each string of the responses that have a score
from the threshold on by itself, with the tag of its response. -/
def classify (threshold : Score) (bot : ChatBot)
    (interpreter : List Score → Option (List.Vector Score bot.responses.length))
    (words : List String) : List BotResponse :=
  match interpreter (bagOfWords bot.words words) with
  | none => []
  | some scores => (List.finRange bot.responses.length).flatMap fun i =>
      if threshold ≤ scores.get i then
        (bot.responses.get i).response.map fun string => ⟨[string], (bot.responses.get i).tag⟩
      else []

section

omit [LE Score] [DecidableLE Score]

/-- The loop over the first positions of the vocabulary has set those of the words found. -/
theorem prepare_input_loop (vocabulary words : List String) {n : Nat}
    (h : n ≤ vocabulary.length) :
    (List.range n).foldl
        (fun result index =>
          if vocabulary[index]?.any words.contains then result.set index (1 : Score) else result)
        (List.replicate vocabulary.length 0) =
      bagOfWords (vocabulary.take n) words ++ List.replicate (vocabulary.length - n) 0 := by
  induction n with
  | zero => simp [bagOfWords]
  | succ n ih =>
      have hlt : n < vocabulary.length := h
      have hleft : vocabulary.length - n = vocabulary.length - (n + 1) + 1 := by omega
      have hword : vocabulary[n]?.any words.contains = decide (vocabulary[n] ∈ words) := by
        simp [List.getElem?_eq_getElem hlt]
      rw [List.range_succ, List.foldl_append, ih (Nat.le_of_lt hlt),
        List.take_succ_eq_append_getElem hlt, hleft, List.replicate_succ]
      simp only [List.foldl_cons, List.foldl_nil, hword, bagOfWords, List.map_append]
      by_cases hmem : vocabulary[n] ∈ words
      · rw [if_pos (by simpa using hmem), List.set_append_right _ _ (by simp [Nat.le_of_lt hlt])]
        simp [hmem, Nat.le_of_lt hlt]
      · rw [if_neg (by simpa using hmem)]
        simp [hmem]

theorem prepare_input_eq (bot : ChatBot) (words : List String) :
    (prepareInput bot words : List Score) = bagOfWords bot.words words := by
  have hloop := @prepare_input_loop Score _ _ bot.words words _ (Nat.le_refl _)
  simpa [prepareInput] using hloop

omit [Zero Score] [One Score] in
/-- An array of scores is read as the scores in it. -/
theorem as_scores_scores (scores : List Score) :
    (AnyValue.array (scores.map .score)).asScores = some scores := by
  show (scores.map AnyValue.score).mapM AnyValue.asScore = some scores
  induction scores with
  | nil => rfl
  | cons score rest ih =>
      rw [List.map_cons, List.mapM_cons, ih]
      rfl

end

variable {tagger : LinguisticTagger} {threshold : Score} {bot : ChatBot}
  {interpreter : List Score → Option (List.Vector Score bot.responses.length)}
  {messages : List Message} {s t : State Score} {i : Nat}

/-- A vector with a score for each response keeps the callback in range. -/
theorem completion_argument_eq (operation : Operation) :
    completionArgument threshold bot interpreter operation =
      .ok ((interpreter (bagOfWords bot.words operation.wordsToProcess)).map fun scores =>
        responsesOf threshold scores.toList bot.responses) := by
  rw [completionArgument, prepare_input_eq]
  cases interpreter (bagOfWords bot.words operation.wordsToProcess) with
  | none => rfl
  | some scores =>
      have hrange : ScoresInRange threshold bot 0 scores.toList := by
        intro k score hscore _
        obtain ⟨hlt, -⟩ := List.getElem?_eq_some_iff.mp hscore
        rw [List.Vector.toList_length] at hlt
        omega
      have hcollected : collectResponses threshold bot 0 scores.toList [] =
          .ok (responsesOf threshold scores.toList bot.responses) := collect_responses_eq hrange
      simp only [runResult, callbackBody, AnyValue.asArray, Option.getD_some, as_scores_scores,
        hcollected]
      rfl

omit [Zero Score] [One Score] in
/-- The positions of the scores are those of the responses. -/
theorem responses_of_vector (threshold : Score) (bot : ChatBot)
    (scores : List.Vector Score bot.responses.length) :
    responsesOf threshold scores.toList bot.responses =
      (List.finRange bot.responses.length).flatMap fun i =>
        if threshold ≤ scores.get i then
          (bot.responses.get i).response.map fun string => ⟨[string], (bot.responses.get i).tag⟩
        else [] := by
  have hzip : scores.toList.zip bot.responses =
      (List.finRange bot.responses.length).map fun i => (scores.get i, bot.responses.get i) := by
    refine List.ext_getElem (by simp) fun i hi hi' => ?_
    simp [List.Vector.get_eq_get_toList]
  rw [responsesOf, hzip, List.flatMap_map]

theorem operation_block_eq (operation : Operation) :
    (operationBlock threshold bot interpreter operation).getD [] =
      classify threshold bot interpreter operation.wordsToProcess := by
  rw [operationBlock, completion_argument_eq, classify]
  cases interpreter (bagOfWords bot.words operation.wordsToProcess) with
  | none => rfl
  | some scores => exact responses_of_vector threshold bot scores

/-- What holds of `process` under every schedule. -/
structure Ran (tagger : LinguisticTagger) (threshold : Score) (bot : ChatBot)
    (interpreter : List Score → Option (List.Vector Score bot.responses.length))
    (messages : List Message) (s : State Score) : Prop where
  consistent : LockedAppend.Consistent (operationBlock threshold bot interpreter)
    (operations tagger messages) s.group
  held : LockedAppend.Held s.group
  /-- Every run is of one of the operations, on the words of its message. -/
  runs : ∀ run ∈ s.runs, run.1 ∈ operations tagger messages ∧
    run.2 = bagOfWords bot.words run.1.wordsToProcess
  once : (s.runs.map Prod.fst).Nodup
  /-- A callback is called by a run. -/
  called : ∀ (i : Nat) worker, s.group.workers[i]? = some worker → worker.phase ≠ .working →
    worker.job ∈ s.runs.map Prod.fst

/-- There is one operation for each position among the messages. -/
theorem operations_eq (tagger : LinguisticTagger) (messages : List Message) :
    operations tagger messages =
      (List.finRange messages.length).map fun i => ⟨i, words tagger (messages.get i)⟩ := by
  refine List.ext_getElem (by simp [operations]) fun i hi hi' => ?_
  simp [operations]

theorem nodup_operations (tagger : LinguisticTagger) (messages : List Message) :
    (operations tagger messages).Nodup := by
  rw [operations_eq]
  refine (List.nodup_finRange _).map fun i j hij => ?_
  exact Fin.ext (congrArg Operation.number hij)

theorem ran_start :
    Ran tagger threshold bot interpreter messages
      (process tagger threshold bot interpreter messages).start where
  consistent := LockedAppend.consistent_spawn _ _
  held := LockedAppend.held_spawn _
  runs := by
    intro run hrun
    cases hrun
  once := List.nodup_nil
  called := by
    intro i worker hworker hphase
    simp only [process, LockedAppend.State.spawn, List.getElem?_map, Option.map_eq_some_iff]
      at hworker
    obtain ⟨operation, -, rfl⟩ := hworker
    exact absurd rfl hphase

/-- The operation at a position is one of those of the queue. -/
theorem Ran.job_mem (h : Ran tagger threshold bot interpreter messages s)
    {worker : LockedAppend.Worker Operation BotResponse}
    (hworker : s.group.workers[i]? = some worker) :
    worker.job ∈ operations tagger messages := by
  rw [← h.consistent.jobs]
  exact List.mem_map_of_mem (List.mem_of_getElem? hworker)

theorem Ran.main (h : Ran tagger threshold bot interpreter messages s)
    (hnext : mainStep bot s i = some t) : Ran tagger threshold bot interpreter messages t := by
  obtain ⟨worker, hworker, hnext⟩ := Option.bind_eq_some_iff.mp hnext
  split at hnext
  · cases hnext
  · rename_i hfresh
    cases hnext
    refine ⟨h.consistent, h.held, ?_, ?_, fun j other hother hphase => ?_⟩
    · intro run hrun
      rcases List.mem_append.mp hrun with hold | hnew
      · exact h.runs run hold
      · obtain rfl := List.mem_singleton.mp hnew
        exact ⟨h.job_mem hworker, prepare_input_eq bot _⟩
    · rw [List.map_append]
      exact List.nodup_append'.mpr ⟨h.once, List.nodup_singleton _, by simpa using hfresh⟩
    · rw [List.map_append]
      exact List.mem_append_left _ (h.called j other hother hphase)

theorem Ran.callback (h : Ran tagger threshold bot interpreter messages s)
    (hnext : callbackStep threshold bot interpreter s i = some t) :
    Ran tagger threshold bot interpreter messages t := by
  obtain ⟨worker, hworker, hnext⟩ := Option.bind_eq_some_iff.mp hnext
  split at hnext
  · rename_i hrun
    rw [completion_argument_eq] at hnext
    obtain ⟨group, hstep, hnext⟩ := Option.bind_eq_some_iff.mp hnext
    cases hnext
    refine ⟨h.consistent.step hstep, h.held.step hstep, h.runs, h.once,
      fun j other hother hphase => ?_⟩
    obtain ⟨moved, hmoved, hstep⟩ := LockedAppend.step_of_next hstep
    obtain ⟨phase, hworkers, -⟩ := hstep.advances
    rw [hworkers] at hother
    rcases LockedAppend.of_getElem_advance hother with ⟨rfl, rfl⟩ | ⟨-, hold⟩
    · obtain rfl : worker = moved := Option.some.inj (hworker.symm.trans hmoved)
      exact hrun
    · exact h.called j other hold hphase
  · cases hnext

theorem ran_of_reaches {first last : State Score}
    (h : (process tagger threshold bot interpreter messages).Reaches first last)
    (hfirst : Ran tagger threshold bot interpreter messages first) :
    Ran tagger threshold bot interpreter messages last := by
  refine h.invariant hfirst fun state action following hstate hnext => ?_
  cases action with
  | main i => exact hstate.main hnext
  | callback i => exact hstate.callback hnext

/-- As long as an operation has not finished, some steps lead to a step of its callback. -/
theorem Ran.exists_reaches (h : Ran tagger threshold bot interpreter messages s)
    (hleft : s.group.allFinished = false) :
    ∃ t, (process tagger threshold bot interpreter messages).Reaches s t ∧
      t.group.left < s.group.left := by
  obtain ⟨i, group, hstep⟩ :=
    LockedAppend.exists_step h.held (operationBlock threshold bot interpreter) hleft
  obtain ⟨worker, hworker, hless⟩ := LockedAppend.step_of_next hstep
  have hcallback : ∀ state : State Score, state.group = s.group →
      worker.job ∈ state.runs.map Prod.fst →
      (process tagger threshold bot interpreter messages).Reaches state { state with group } := by
    intro state hgroup hrun
    have hnext : (process tagger threshold bot interpreter messages).next state (.callback i) =
        some { state with group } := by
      simp only [process, callbackStep, hgroup, hworker, Option.bind_eq_bind, Option.bind_some,
        completion_argument_eq, if_pos hrun, hstep]
    exact .step hnext
  by_cases hrun : worker.job ∈ s.runs.map Prod.fst
  · exact ⟨_, hcallback s rfl hrun, hless.left_lt hworker⟩
  · -- the run has to be made first
    let ran : State Score :=
      { s with runs := s.runs ++ [(worker.job, prepareInput bot worker.job.wordsToProcess)] }
    have hmain : (process tagger threshold bot interpreter messages).Reaches s ran := by
      have hnext : (process tagger threshold bot interpreter messages).next s (.main i) =
          some ran := by
        simp only [process, mainStep, hworker, Option.bind_eq_bind, Option.bind_some,
          if_neg hrun, ran]
      exact .step hnext
    exact ⟨_, hmain.trans (hcallback ran rfl (by simp [ran])), hless.left_lt hworker⟩

/-- From every state, `process` can go on to its return. -/
theorem Ran.exists_returned (h : Ran tagger threshold bot interpreter messages s) :
    ∃ t, (process tagger threshold bot interpreter messages).Reaches s t ∧
      (returned bot t).isSome = true := by
  induction hsteps : s.group.left using Nat.strong_induction_on generalizing s with
  | _ steps ih =>
      cases hfinished : s.group.allFinished with
      | true => exact ⟨s, .refl s, by simp [returned, hfinished]⟩
      | false =>
          obtain ⟨following, hreaches, hless⟩ := h.exists_reaches hfinished
          obtain ⟨last, hlast, hreturned⟩ :=
            ih following.group.left (hsteps ▸ hless) (ran_of_reaches hreaches h) rfl
          exact ⟨last, hreaches.trans hlast, hreturned⟩

/-- When all operations have finished, the interpreter has been run once for each of them. -/
theorem Ran.runs_perm (h : Ran tagger threshold bot interpreter messages s)
    (hfinished : s.group.allFinished = true) :
    s.runs.Perm ((operations tagger messages).map fun operation =>
      (operation, bagOfWords bot.words operation.wordsToProcess)) := by
  have hruns : s.runs = (s.runs.map Prod.fst).map fun operation =>
      (operation, bagOfWords bot.words operation.wordsToProcess) := by
    rw [List.map_map]
    conv_lhs => rw [← List.map_id s.runs]
    refine List.map_congr_left fun run hrun => ?_
    exact Prod.ext rfl (h.runs run hrun).2
  have hperm : (s.runs.map Prod.fst).Perm (operations tagger messages) := by
    refine (List.perm_ext_iff_of_nodup h.once (nodup_operations tagger messages)).mpr
      fun operation => ⟨fun hmem => ?_, fun hmem => ?_⟩
    · obtain ⟨run, hrun, rfl⟩ := List.mem_map.mp hmem
      exact (h.runs run hrun).1
    · rw [← h.consistent.jobs] at hmem
      obtain ⟨worker, hworker, rfl⟩ := List.mem_map.mp hmem
      obtain ⟨i, hi⟩ := List.mem_iff_getElem?.mp hworker
      refine h.called i worker hi fun hphase => ?_
      have hended := List.all_eq_true.mp hfinished worker hworker
      rw [hphase] at hended
      cases hended
  rw [hruns]
  exact hperm.map _

/-- When all operations have finished, there has been one run for each message, and the responses
to the messages are there in the order in which the operations finished. -/
theorem Ran.responses (h : Ran tagger threshold bot interpreter messages s)
    (hfinished : s.group.allFinished = true) :
    (s.runs.map fun run => (run.1.number, run.2)).Perm
      ((List.finRange messages.length).map fun i =>
        (i.val, bagOfWords bot.words (words tagger (messages.get i)))) ∧
    ∃ order : List (Fin messages.length),
      order.Perm (List.finRange messages.length) ∧
      order.map Fin.val = s.group.order.map Operation.number ∧
      s.group.shared = order.flatMap fun i =>
        classify threshold bot interpreter (words tagger (messages.get i)) := by
  have hruns := h.runs_perm hfinished
  obtain ⟨horder, hshared⟩ := h.consistent.shared_of_finished hfinished
  rw [operations_eq] at hruns horder
  constructor
  · have hnumbered := hruns.map fun run => (run.1.number, run.2)
    simpa only [List.map_map, Function.comp_def] using hnumbered
  · obtain ⟨order, hfinishing, hperm⟩ :=
      (congrFun₂ (List.eq_map_comp_perm _) _ _).mpr horder
    refine ⟨order, hperm, ?_, ?_⟩
    · rw [hfinishing, List.map_map]
      rfl
    · rw [hshared, hfinishing, List.flatMap_map]
      simp only [operation_block_eq]

/-- `process` returns, and under every schedule it has then run the interpreter once for each
message, on the words of the vocabulary that the message has, and returns the responses to the
messages in the order in which their operations finished, each message once. -/
theorem process_responses
    (h : (process tagger threshold bot interpreter messages).Reachable s) :
    (∃ t, (process tagger threshold bot interpreter messages).Reaches s t ∧
      (returned bot t).isSome = true) ∧
    ∀ result, returned bot s = some result →
      (s.runs.map fun run => (run.1.number, run.2)).Perm
        ((List.finRange messages.length).map fun i =>
          (i.val, bot.words.map fun word =>
            if word ∈ words tagger (messages.get i) then 1 else 0)) ∧
      result.bot = bot ∧
      ∃ order : List (Fin messages.length),
        order.Perm (List.finRange messages.length) ∧
        order.map Fin.val = s.group.order.map Operation.number ∧
        result.responses = order.flatMap fun i =>
          classify threshold bot interpreter (words tagger (messages.get i)) := by
  have hran := ran_of_reaches h ran_start
  refine ⟨hran.exists_returned, fun result hresult => ?_⟩
  unfold returned at hresult
  split at hresult
  · rename_i hfinished
    obtain rfl := Option.some.inj hresult
    obtain ⟨hruns, hresponses⟩ := hran.responses hfinished
    exact ⟨hruns, rfl, hresponses⟩
  · cases hresult

/-- A bot with two words and two responses. -/
def greeter : ChatBot :=
  { ChatBot.named "a" with
    words := ["hi", "bye"]
    responses := [⟨["hello", "hey"], "welcome"⟩, ⟨["so long"], "farewell"⟩] }

/-- A model that knows what to answer to either word, but not to both. -/
def greeting : List Nat → Option (List.Vector Nat greeter.responses.length)
  | [1, 0] => some ⟨[9, 3], rfl⟩
  | [0, 1] => some ⟨[8, 10], rfl⟩
  | _ => none

/-- What `greeter` says to two goodbyes. -/
def farewells : ChatBotResult :=
  { bot := greeter, responses := List.replicate 2 ⟨["so long"], "farewell"⟩ }

/-- The same message twice, and one that `greeting` fails on. -/
def goodbyes : List Message :=
  let bye : Message := [⟨['b'], by decide⟩, ⟨['y'], by decide⟩, ⟨['e'], by decide⟩]
  [bye, bye, []]

/-- The last operation finishes first. -/
theorem process_responses_run :
    ∃ s : State Nat, (process spaceTagger 9 greeter greeting goodbyes).Reachable s ∧
      returned greeter s = some farewells ∧
      s.group.order.map Operation.number = [2, 1, 0] ∧
      ∃ order : List (Fin goodbyes.length),
        order.Perm (List.finRange goodbyes.length) ∧
        order.map Fin.val = s.group.order.map Operation.number ∧
        farewells.responses = order.flatMap fun i =>
          classify 9 greeter greeting (words spaceTagger (goodbyes.get i)) := by
  let goOn (i : Nat) : List Action := List.replicate 4 (.callback i)
  obtain ⟨s, hs, hreturned, horder⟩ :=
    (process spaceTagger 9 greeter greeting goodbyes).exists_reachable
      ([.main 0, .main 2, .callback 2, .main 1] ++ goOn 1 ++ goOn 0)
      (fun s => returned greeter s = some farewells ∧
        s.group.order.map Operation.number = [2, 1, 0]) (by decide)
  exact ⟨s, hs, hreturned, horder, ((process_responses hs).2 _ hreturned).2.2⟩

end AiGramLib.BotProcessor
