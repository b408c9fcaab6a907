import Mathlib.Data.List.Perm.Basic
import AiGramLib.Messages.Machine

/-!
# The list given to a completion

`completion_results` says what a request's completion is given, whatever the schedule of the
bots' operations: the non-empty results of the enabled bots, in the order of finishing except
that the first result of the bot `assistant` comes first. It is `shared_of_finished`, the
result about workers that append under a mutex, followed through the main block.
-/

namespace AiGramLib

/-- The results are kept as they are, or the first one of `assistant` is moved to the front. -/
theorem results_with_assistant_handling_cases (results : List ChatBotResult) :
    (resultsWithAssistantHandling results = results ∧
      ((∃ result ∈ results, result.bot.name = "assistant") →
        results.head?.map (fun result => result.bot.name) = some "assistant")) ∨
    ∃ before moved after, results = before ++ moved :: after ∧ moved.bot.name = "assistant" ∧
      resultsWithAssistantHandling results = moved :: (before ++ after) := by
  cases hindex : results.findIdx? fun result => result.bot.name == "assistant" with
  | none =>
      have hnone := List.findIdx?_eq_none_iff.mp hindex
      refine Or.inl ⟨by simp [resultsWithAssistantHandling, hindex], ?_⟩
      rintro ⟨result, hmem, hname⟩
      simpa [hname] using hnone result hmem
  | some index =>
      obtain ⟨hlt, hname, _⟩ := List.findIdx?_eq_some_iff_getElem.mp hindex
      have hassistant : results[index].bot.name = "assistant" := by simpa using hname
      by_cases hpos : 0 < index
      · refine Or.inr ⟨results.take index, results[index], results.drop (index + 1), ?_,
          hassistant, ?_⟩
        · rw [← List.drop_eq_getElem_cons hlt, List.take_append_drop]
        · simp [resultsWithAssistantHandling, hindex, hpos, hlt, List.eraseIdx_eq_take_drop_succ]
      · obtain rfl : index = 0 := by omega
        refine Or.inl ⟨by simp [resultsWithAssistantHandling, hindex], fun _ => ?_⟩
        rw [List.head?_eq_getElem?, List.getElem?_eq_getElem hlt, Option.map_some, hassistant]

/-- Moving the result of `assistant` neither loses nor duplicates a result. -/
theorem results_with_assistant_handling_perm (results : List ChatBotResult) :
    (resultsWithAssistantHandling results).Perm results := by
  rcases results_with_assistant_handling_cases results with
    ⟨heq, _⟩ | ⟨before, moved, after, rfl, _, heq⟩
  · rw [heq]
  · rw [heq]
    exact List.perm_middle.symm

/-- If there is a result of `assistant`, the first one is. -/
theorem head_results_with_assistant_handling {results : List ChatBotResult}
    (h : ∃ result ∈ resultsWithAssistantHandling results, result.bot.name = "assistant") :
    (resultsWithAssistantHandling results).head?.map (fun result => result.bot.name) =
      some "assistant" := by
  rcases results_with_assistant_handling_cases results with ⟨heq, hhead⟩ | ⟨_, _, _, _, hname, heq⟩
  · rw [heq] at h ⊢
    exact hhead h
  · simp [heq, hname]

namespace Messages

open Transition

variable {Message : Type} {process : ChatBot → List Message → ChatBotResult}

/-- The results that the given bots append for a request, in that order. -/
def appended (process : ChatBot → List Message → ChatBotResult) (messages : List Message)
    (bots : List ChatBot) : List ChatBotResult :=
  (bots.map fun bot => process bot messages).filter fun result => !result.responses.isEmpty

/-- The bots whose operations a request starts. -/
def Block.enabledBots (block : Block Message) : List ChatBot :=
  block.bots.filter (isBotEnabled block.botEnableStates)

/-- The blocks of the bots' operations, one after the other, are the non-empty results. -/
theorem flat_map_bot_block (messages : List Message) (bots : List ChatBot) :
    (bots.flatMap fun bot => (botBlock process messages bot).getD []) =
      appended process messages bots := by
  induction bots with
  | nil => rfl
  | cons bot rest ih =>
      cases hempty : (process bot messages).responses.isEmpty <;>
        simp_all [appended, botBlock]

/-- A schedule of the bots changes only the order of the results. -/
theorem appended_perm {order bots : List ChatBot} (h : order.Perm bots)
    (messages : List Message) :
    (appended process messages order).Perm (appended process messages bots) :=
  (h.map _).filter _

/-- What the operations of a request have put into its main block. -/
structure Gathered (process : ChatBot → List Message → ChatBotResult) (block : Block Message) :
    Prop where
  order : block.order.Perm block.enabledBots
  results : block.results = appended process block.request.messages block.order

/-- The group of operations of the running request is consistent, and every main block,
pending or answered, holds what its operations gathered. -/
structure Collected (process : ChatBot → List Message → ChatBotResult) (s : State Message) :
    Prop where
  running : ∀ running, s.running = some running →
    LockedAppend.Consistent (botBlock process running.request.messages)
      (running.bots.filter (isBotEnabled running.botEnableStates)) running.localQueue
  main : ∀ block ∈ s.main, Gathered process block
  answers : ∀ answer ∈ s.answers, Gathered process answer.block ∧
    answer.results = resultsWithAssistantHandling answer.block.results

variable {s t : State Message}

theorem Collected.start (h : Collected process s) {bots : List ChatBot}
    {botEnableStates : ChatBotId → Option Bool}
    (hnext : Messages.start s bots botEnableStates = some t) : Collected process t := by
  unfold Messages.start at hnext
  split at hnext
  · cases hnext
    refine ⟨?_, h.main, h.answers⟩
    intro running hrunning
    cases hrunning
    exact LockedAppend.consistent_spawn _ _
  · cases hnext

theorem Collected.work (h : Collected process s) {i : Nat}
    (hnext : Messages.work process s i = some t) : Collected process t := by
  obtain ⟨running, hrunning, hnext⟩ := Option.bind_eq_some_iff.mp hnext
  obtain ⟨localQueue, hstep, hnext⟩ := Option.bind_eq_some_iff.mp hnext
  cases hnext
  refine ⟨?_, h.main, h.answers⟩
  intro after hafter
  cases hafter
  exact (h.running running hrunning).step hstep

theorem Collected.finish (h : Collected process s) (hnext : Messages.finish s = some t) :
    Collected process t := by
  obtain ⟨running, hrunning, hnext⟩ := Option.bind_eq_some_iff.mp hnext
  split at hnext
  · rename_i hfinished
    cases hnext
    obtain ⟨horder, hshared⟩ := (h.running running hrunning).shared_of_finished hfinished
    refine ⟨by simp, ?_, h.answers⟩
    intro block hblock
    rcases List.mem_append.mp hblock with hold | hnew
    · exact h.main block hold
    · obtain rfl := List.mem_singleton.mp hnew
      exact ⟨horder, hshared.trans (flat_map_bot_block _ _)⟩
  · cases hnext

variable [DecidableEq Message]

theorem Collected.run_block (h : Collected process s) (hnext : runBlock s = some t) :
    Collected process t := by
  unfold runBlock at hnext
  split at hnext
  · cases hnext
  · rename_i block rest hmain
    have hblock : Gathered process block := h.main block (hmain ▸ List.mem_cons_self)
    have hrest : ∀ later ∈ rest, Gathered process later := fun later hlater =>
      h.main later (hmain ▸ List.mem_cons_of_mem _ hlater)
    split at hnext
    · cases hnext
      refine ⟨h.running, hrest, ?_⟩
      intro answer hanswer
      rcases List.mem_append.mp hanswer with hold | hnew
      · exact h.answers answer hold
      · obtain rfl := List.mem_singleton.mp hnew
        exact ⟨hblock, rfl⟩
    · cases hnext
      exact ⟨h.running, hrest, h.answers⟩

theorem collected_of_reachable (h : (machine process).Reachable s) : Collected process s := by
  refine h.invariant (P := Collected process) ⟨by simp [machine, State.initial],
    by simp [machine, State.initial], by simp [machine, State.initial]⟩ ?_
  intro state action following hcollected hnext
  cases action with
  | handleMessages messages =>
      cases hnext
      exact ⟨hcollected.running, hcollected.main, hcollected.answers⟩
  | start bots botEnableStates => exact hcollected.start hnext
  | work i => exact hcollected.work hnext
  | finish => exact hcollected.finish hnext
  | runBlock => exact hcollected.run_block hnext

/-- The list given to a completion has exactly the non-empty results of the enabled bots, with
multiplicity; a result of `assistant`, if there is one, is the first; the others keep the
order in which they were appended. Two schedules of a request give the same results. -/
theorem completion_results (h : (machine process).Reachable s) {answer : Answer Message}
    (hanswer : answer ∈ s.answers) :
    answer.results.Perm
      (appended process answer.block.request.messages answer.block.enabledBots) ∧
    ((∃ result ∈ answer.results, result.bot.name = "assistant") →
      answer.results.head?.map (fun result => result.bot.name) = some "assistant") ∧
    (answer.block.order.Perm answer.block.enabledBots ∧
      let finished := appended process answer.block.request.messages answer.block.order
      answer.results = finished ∨
      ∃ before moved after, finished = before ++ moved :: after ∧
        moved.bot.name = "assistant" ∧ answer.results = moved :: (before ++ after)) ∧
    (∀ t, (machine process).Reachable t → ∀ other ∈ t.answers,
      other.block.request.messages = answer.block.request.messages →
      other.block.bots = answer.block.bots →
      other.block.botEnableStates = answer.block.botEnableStates →
      other.results.Perm answer.results) := by
  have hperm : ∀ u, (machine process).Reachable u → ∀ given ∈ u.answers, given.results.Perm
      (appended process given.block.request.messages given.block.enabledBots) := by
    intro u hu given hgiven
    obtain ⟨hgathered, hresults⟩ := (collected_of_reachable hu).answers given hgiven
    rw [hresults]
    refine (results_with_assistant_handling_perm _).trans ?_
    rw [hgathered.results]
    exact appended_perm hgathered.order _
  obtain ⟨hgathered, hresults⟩ := (collected_of_reachable h).answers answer hanswer
  refine ⟨hperm s h answer hanswer, ?_, ⟨hgathered.order, ?_⟩, ?_⟩
  · rw [hresults]
    exact head_results_with_assistant_handling
  · rw [hresults, ← hgathered.results]
    rcases results_with_assistant_handling_cases answer.block.results with ⟨heq, _⟩ | hmoved
    · exact Or.inl heq
    · exact Or.inr hmoved
  · intro t ht other hother hmessages hbots hstates
    refine (hperm t ht other hother).trans ?_
    rw [Block.enabledBots, hmessages, hbots, hstates]
    exact (hperm s h answer hanswer).symm

/-- Two bots that both answer, the second one being `assistant`. -/
theorem completion_results_run :
    ∃ (s : State String) (answer : Answer String),
      (machine fun bot (_ : List String) => ⟨bot, [⟨["hello"], "greeting"⟩]⟩).Reachable s ∧
      answer ∈ s.answers ∧
      answer.results.map (fun result => result.bot.name) = ["assistant", "snow"] ∧
      ((∃ result ∈ answer.results, result.bot.name = "assistant") →
        answer.results.head?.map (fun result => result.bot.name) = some "assistant") := by
  obtain ⟨s, hreach, hnames⟩ := Machine.exists_reachable
    (machine fun bot (_ : List String) => ⟨bot, [⟨["hello"], "greeting"⟩]⟩)
    [.handleMessages ["a"], .start [.named "snow", .named "assistant"] fun _ => none,
      .work 0, .work 0, .work 0, .work 0, .work 1, .work 1, .work 1, .work 1, .finish, .runBlock]
    (fun s => s.answers.map (fun answer => answer.results.map fun result => result.bot.name) =
      [["assistant", "snow"]]) (by decide)
  obtain ⟨answer, hanswers, horder⟩ := List.map_eq_singleton_iff.mp hnames
  have hmem : answer ∈ s.answers := hanswers ▸ List.mem_cons_self
  exact ⟨s, answer, hreach, hmem, horder, (completion_results hreach hmem).2.1⟩

end Messages

end AiGramLib
