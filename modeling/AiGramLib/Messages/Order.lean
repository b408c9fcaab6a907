import AiGramLib.Messages.Machine

/-!
# Answers come once, in order and only to the newest messages

`step_effect` says what each action does to the requests that are not finished and to the
history: a call adds a request, a main block takes the oldest one away and answers it or
drops it, and everything else leaves both alone. `answered_once_in_order` follows from the
invariants `Ordered` and `Honest`.
-/

namespace AiGramLib.Messages

open Transition

variable {Message : Type}

/-- The request that a call puts into the queue. -/
def requests (calls : List (Call Message)) : List (Request Message) :=
  calls.mapIdx fun i call => ⟨i, call.messages⟩

/-- What a step does to the unfinished requests and to the history. -/
inductive Effect (s t : State Message) : Prop where
  | called (messages : List Message) (ht : t = call s messages)
  | internal (hpending : t.pending = s.pending) (hlast : t.lastMessages = s.lastMessages)
      (hhandled : t.handled = s.handled) (hcalls : t.calls = s.calls)
      (hanswers : t.answers = s.answers)
  | answered (block : Block Message) (hpending : s.pending = block.request :: t.pending)
      (hmatch : s.lastMessages = some block.request.messages) (hlast : t.lastMessages = none)
      (hhandled : t.handled = s.handled + 1) (hcalls : t.calls = s.calls)
      (hanswers : t.answers = s.answers ++
        [⟨block, resultsWithAssistantHandling block.results, s.calls.length⟩])
  | dropped (block : Block Message) (hpending : s.pending = block.request :: t.pending)
      (hmatch : s.lastMessages ≠ some block.request.messages)
      (hlast : t.lastMessages = s.lastMessages)
      (hhandled : t.handled = s.handled + 1) (hcalls : t.calls = s.calls)
      (hanswers : t.answers = s.answers)

section

variable {s t : State Message}

theorem pending_call (s : State Message) (messages : List Message) :
    (call s messages).pending = s.pending ++ [⟨s.calls.length, messages⟩] := by
  simp [State.pending, call]

theorem requests_append (calls : List (Call Message)) (new : Call Message) :
    requests (calls ++ [new]) = requests calls ++ [⟨calls.length, new.messages⟩] := by
  simp [requests, List.mapIdx_append]

@[simp] theorem length_requests (calls : List (Call Message)) :
    (requests calls).length = calls.length := by
  simp [requests]

theorem effect_start {bots : List ChatBot} {botEnableStates : ChatBotId → Option Bool}
    (h : start s bots botEnableStates = some t) : Effect s t := by
  unfold start at h
  split at h
  · rename_i request rest hrunning hqueue
    cases h
    exact .internal (by simp [State.pending, hrunning, hqueue]) rfl rfl rfl rfl
  · cases h

theorem effect_work {process : ChatBot → List Message → ChatBotResult} {i : Nat}
    (h : work process s i = some t) : Effect s t := by
  obtain ⟨running, hrunning, h⟩ := Option.bind_eq_some_iff.mp h
  obtain ⟨localQueue, _, h⟩ := Option.bind_eq_some_iff.mp h
  cases h
  exact .internal (by simp [State.pending, hrunning]) rfl rfl rfl rfl

theorem effect_finish (h : finish s = some t) : Effect s t := by
  obtain ⟨running, hrunning, h⟩ := Option.bind_eq_some_iff.mp h
  split at h
  · cases h
    exact .internal (by simp [State.pending, hrunning]) rfl rfl rfl rfl
  · cases h

variable [DecidableEq Message]

theorem effect_run_block (h : runBlock s = some t) : Effect s t := by
  unfold runBlock at h
  split at h
  · cases h
  · rename_i block rest hmain
    split at h
    · rename_i hmatch
      cases h
      exact .answered block (by simp [State.pending, hmain]) hmatch.symm rfl rfl rfl rfl
    · rename_i hmatch
      cases h
      exact .dropped block (by simp [State.pending, hmain]) (Ne.symm hmatch) rfl rfl rfl rfl

/-- The four things a step can do. -/
theorem step_effect {process : ChatBot → List Message → ChatBotResult} {action : Action Message}
    (h : (machine process).next s action = some t) : Effect s t := by
  cases action with
  | handleMessages messages =>
      cases h
      exact .called messages rfl
  | start bots botEnableStates => exact effect_start h
  | work i => exact effect_work h
  | finish => exact effect_finish h
  | runBlock => exact effect_run_block h

end

/-- The unfinished requests are the calls whose blocks have not run, the oldest first. -/
structure Ordered (s : State Message) : Prop where
  handled_le : s.handled ≤ s.calls.length
  pending : s.pending = (requests s.calls).drop s.handled

/-- What the answers given so far have to do with the calls made so far. -/
structure Honest (s : State Message) : Prop where
  handled : ∀ answer ∈ s.answers, answer.block.request.call < s.handled
  ordered : s.answers.Pairwise fun first second =>
    first.block.request.call < second.block.request.call
  separated : s.answers.Pairwise fun first second => first.callsMade < second.callsMade
  made : ∀ answer ∈ s.answers, answer.callsMade ≤ s.calls.length
  /-- `lastMessages` is cleared by an answer and set again only by a call. -/
  unanswered : s.lastMessages ≠ none → ∀ answer ∈ s.answers, answer.callsMade < s.calls.length
  last : ∀ messages, s.lastMessages = some messages →
    s.calls.getLast?.map Call.messages = some messages
  own : ∀ answer ∈ s.answers,
    s.calls[answer.block.request.call]?.map Call.messages = some answer.block.request.messages
  newest : ∀ answer ∈ s.answers,
    (s.calls.take answer.callsMade).getLast?.map Call.messages =
      some answer.block.request.messages

variable {s t : State Message}

/-- The oldest unfinished request is the first call whose block has not run. -/
theorem Ordered.head (h : Ordered s) {request : Request Message}
    {rest : List (Request Message)} (hpending : s.pending = request :: rest) :
    request.call = s.handled ∧
      s.calls[request.call]?.map Call.messages = some request.messages ∧
      s.handled < s.calls.length ∧ rest = (requests s.calls).drop (s.handled + 1) := by
  have hdrop := h.pending.symm.trans hpending
  have hlt : s.handled < s.calls.length := by
    by_contra hge
    rw [List.drop_of_length_le (by simpa using hge)] at hdrop
    cases hdrop
  rw [List.drop_eq_getElem_cons (by simpa using hlt)] at hdrop
  obtain ⟨hhead, hrest⟩ := List.cons.inj hdrop
  have hrequest : request = ⟨s.handled, (s.calls[s.handled]).messages⟩ := by
    rw [← hhead]
    simp [requests]
  subst hrequest
  exact ⟨rfl, by simp [hlt], hlt, hrest.symm⟩

/-- Every step keeps the order of the requests. -/
theorem Ordered.step (h : Ordered s) (heffect : Effect s t) : Ordered t := by
  cases heffect with
  | called messages ht =>
      subst ht
      have hle := h.handled_le
      refine ⟨by simp only [call, List.length_append]; omega, ?_⟩
      rw [pending_call, h.pending]
      show _ = (requests (s.calls ++ [_])).drop s.handled
      rw [requests_append, List.drop_append_of_le_length (by simpa using hle)]
  | internal hpending _ hhandled hcalls _ =>
      exact ⟨by rw [hhandled, hcalls]; exact h.handled_le,
        by rw [hpending, hhandled, hcalls]; exact h.pending⟩
  | answered block hpending _ _ hhandled hcalls _ =>
      obtain ⟨_, _, hlt, hrest⟩ := h.head hpending
      exact ⟨by rw [hhandled, hcalls]; exact hlt, by rw [hhandled, hcalls]; exact hrest⟩
  | dropped block hpending _ _ hhandled hcalls _ =>
      obtain ⟨_, _, hlt, hrest⟩ := h.head hpending
      exact ⟨by rw [hhandled, hcalls]; exact hlt, by rw [hhandled, hcalls]; exact hrest⟩

/-- A call keeps what is known of the answers: it only adds to the end of the history. -/
theorem Honest.called (h : Honest s) (messages : List Message) : Honest (call s messages) where
  handled := h.handled
  ordered := h.ordered
  separated := h.separated
  made answer hanswer := by
    have hmade := h.made answer hanswer
    simp only [call, List.length_append]
    omega
  unanswered _ answer hanswer := by
    have hmade := h.made answer hanswer
    simp only [call, List.length_append, List.length_singleton]
    omega
  last last hlast := by
    cases hlast
    simp [call]
  own answer hanswer := by
    obtain ⟨found, hfound, hmessages⟩ := Option.map_eq_some_iff.mp (h.own answer hanswer)
    have hlt := (List.getElem?_eq_some_iff.mp hfound).1
    simp [call, List.getElem?_append_left hlt, hfound, hmessages]
  newest answer hanswer := by
    rw [show (call s messages).calls = s.calls ++ [_] from rfl,
      List.take_append_of_le_length (h.made answer hanswer)]
    exact h.newest answer hanswer

/-- The block of the oldest unfinished request answers it with the newest messages. -/
theorem Honest.answered (h : Honest s) (hordered : Ordered s) {block : Block Message}
    (hpending : s.pending = block.request :: t.pending)
    (hmatch : s.lastMessages = some block.request.messages) (hlast : t.lastMessages = none)
    (hhandled : t.handled = s.handled + 1) (hcalls : t.calls = s.calls)
    (hanswers : t.answers = s.answers ++
      [⟨block, resultsWithAssistantHandling block.results, s.calls.length⟩]) : Honest t := by
  obtain ⟨hcall, hown, _, _⟩ := hordered.head hpending
  have hunanswered := h.unanswered (by rw [hmatch]; exact Option.some_ne_none _)
  refine ⟨?_, ?_, ?_, ?_, ?_, ?_, ?_, ?_⟩
  · rw [hanswers, hhandled]
    refine List.forall_mem_append.mpr ⟨fun answer hanswer => ?_, ?_⟩
    · exact Nat.lt_succ_of_lt (h.handled answer hanswer)
    · exact List.forall_mem_singleton.mpr (Nat.lt_succ_of_le (Nat.le_of_eq hcall))
  · rw [hanswers, List.pairwise_append]
    refine ⟨h.ordered, List.pairwise_singleton _ _, ?_⟩
    intro answer hold new hnew
    obtain rfl := List.mem_singleton.mp hnew
    exact Nat.lt_of_lt_of_eq (h.handled answer hold) hcall.symm
  · rw [hanswers, List.pairwise_append]
    refine ⟨h.separated, List.pairwise_singleton _ _, ?_⟩
    intro answer hold new hnew
    obtain rfl := List.mem_singleton.mp hnew
    exact hunanswered answer hold
  · rw [hanswers, hcalls]
    exact List.forall_mem_append.mpr ⟨h.made, List.forall_mem_singleton.mpr (Nat.le_refl _)⟩
  · intro hne
    exact absurd hlast hne
  · intro messages hsome
    rw [hlast] at hsome
    cases hsome
  · rw [hanswers, hcalls]
    exact List.forall_mem_append.mpr ⟨h.own, List.forall_mem_singleton.mpr hown⟩
  · rw [hanswers, hcalls]
    refine List.forall_mem_append.mpr ⟨h.newest, List.forall_mem_singleton.mpr ?_⟩
    rw [List.take_length]
    exact h.last _ hmatch

/-- Every step keeps the answers honest. -/
theorem Honest.step (h : Honest s) (hordered : Ordered s) (heffect : Effect s t) : Honest t := by
  cases heffect with
  | called messages ht =>
      subst ht
      exact h.called messages
  | internal _ hlast hhandled hcalls hanswers =>
      refine ⟨?_, ?_, ?_, ?_, ?_, ?_, ?_, ?_⟩
      all_goals simp only [hlast, hhandled, hcalls, hanswers]
      · exact h.handled
      · exact h.ordered
      · exact h.separated
      · exact h.made
      · exact h.unanswered
      · exact h.last
      · exact h.own
      · exact h.newest
  | answered block hpending hmatch hlast hhandled hcalls hanswers =>
      exact h.answered hordered hpending hmatch hlast hhandled hcalls hanswers
  | dropped block _ _ hlast hhandled hcalls hanswers =>
      refine ⟨?_, ?_, ?_, ?_, ?_, ?_, ?_, ?_⟩
      all_goals simp only [hlast, hhandled, hcalls, hanswers]
      · exact fun answer hanswer => Nat.lt_succ_of_lt (h.handled answer hanswer)
      · exact h.ordered
      · exact h.separated
      · exact h.made
      · exact h.unanswered
      · exact h.last
      · exact h.own
      · exact h.newest

theorem ordered_initial : Ordered (.initial : State Message) :=
  ⟨Nat.le_refl _, rfl⟩

theorem honest_initial : Honest (.initial : State Message) := by
  constructor <;> simp [State.initial]

/-- In a list sorted by call, a call occurs at most once. -/
theorem countP_le_one_of_pairwise {answers : List (Answer Message)}
    (h : answers.Pairwise fun first second =>
      first.block.request.call < second.block.request.call) (k : Nat) :
    (answers.countP fun answer => answer.block.request.call == k) ≤ 1 := by
  induction answers with
  | nil => simp
  | cons answer rest ih =>
      obtain ⟨hlt, hrest⟩ := List.pairwise_cons.mp h
      by_cases hk : answer.block.request.call = k
      · have hzero : (rest.countP fun later => later.block.request.call == k) = 0 := by
          apply List.countP_eq_zero.mpr
          intro later hlater
          have := hlt later hlater
          simp only [beq_iff_eq]
          omega
        simp [hk, hzero]
      · simpa [List.countP_cons, hk] using ih hrest

/-- In a list sorted by call, counting a call once is finding it. -/
theorem countP_eq_one_iff_of_pairwise {answers : List (Answer Message)}
    (h : answers.Pairwise fun first second =>
      first.block.request.call < second.block.request.call) (k : Nat) :
    (answers.countP fun answer => answer.block.request.call == k) = 1 ↔
      ∃ answer ∈ answers, answer.block.request.call = k := by
  have honce := countP_le_one_of_pairwise h k
  have hpos := List.countP_pos_iff (p := fun answer : Answer Message =>
    answer.block.request.call == k) (l := answers)
  simp only [beq_iff_eq] at hpos
  rw [← hpos]
  omega

variable [DecidableEq Message] {process : ChatBot → List Message → ChatBotResult}

theorem ordered_and_honest_of_reachable (h : (machine process).Reachable s) :
    Ordered s ∧ Honest s :=
  h.invariant (P := fun s => Ordered s ∧ Honest s) ⟨ordered_initial, honest_initial⟩
    fun _ _ _ hinv hnext =>
      ⟨hinv.1.step (step_effect hnext), hinv.2.step hinv.1 (step_effect hnext)⟩

/-- No stale, duplicated or reordered answer: each completion is invoked at most once, with the
messages of its call and of the newest call made before, in the order of the calls, and with
a call between any two invocations. -/
theorem answered_once_in_order (h : (machine process).Reachable s) :
    (∀ k, (s.answers.countP fun answer => answer.block.request.call == k) ≤ 1) ∧
    (∀ answer ∈ s.answers,
      s.calls[answer.block.request.call]?.map Call.messages =
        some answer.block.request.messages ∧
      (s.calls.take answer.callsMade).getLast?.map Call.messages =
        some answer.block.request.messages) ∧
    (s.answers.Pairwise fun first second =>
      first.block.request.call < second.block.request.call) ∧
    (s.answers.Pairwise fun first second => first.callsMade < second.callsMade) := by
  have hhonest := (ordered_and_honest_of_reachable h).2
  exact ⟨countP_le_one_of_pairwise hhonest.ordered,
    fun answer hanswer => ⟨hhonest.own answer hanswer, hhonest.newest answer hanswer⟩,
    hhonest.ordered, hhonest.separated⟩

/-- Two requests, the second made while the first is being processed: only the second is
answered. -/
theorem answered_once_in_order_run :
    ∃ s : State String, (machine fun bot (_ : List String) => ⟨bot, []⟩).Reachable s ∧
      s.handled = 2 ∧ s.answers.length = 1 ∧
      s.answers.Pairwise fun first second => first.callsMade < second.callsMade := by
  have hreach : (machine fun bot (_ : List String) => ⟨bot, []⟩).Reachable _ :=
    ⟨[.handleMessages ["a"], .start [] fun _ => none, .handleMessages ["b"], .finish,
      .runBlock, .start [] fun _ => none, .finish, .runBlock], rfl⟩
  exact ⟨_, hreach, rfl, rfl, (answered_once_in_order hreach).2.2.2⟩

end AiGramLib.Messages
