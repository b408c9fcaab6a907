import AiGramLib.Messages.Loop

/-!
# The bots that the loop asks

A fact that every turn of the loop keeps is recorded in the blocks and answers (`Recorded`).
`loop_refines` follows the bots that were asked into the answers; `steady_bot_asked` says which
bots these are, by the switches when the loop began and those that are touched meanwhile.
-/

namespace AiGramLib.Messages.Loop

open Transition

variable {Message : Type} [DecidableEq Message]
  {process : ChatBot → List Message → ChatBotResult} {bots : List ChatBot}
  {enabledBots : ChatBotId → Option Bool} {s t : State Message}

/-- A fact about the turns of the loop: about the stored states, the bots and the stored states
when the loop began, the bots that were asked and those that remain. -/
abbrev Turns := (ChatBotId → Option Bool) → List ChatBot → (ChatBotId → Option Bool) →
  List ChatBot → List ChatBot → Prop

/-- It holds when the loop begins, every turn keeps it, and so does every switch that `ok` lets
through. -/
structure KeptByTurns (ok : State Message → Action Message → Bool) (fact : Turns) : Prop where
  start : ∀ {states bots}, fact states bots states [] bots
  ask : ∀ {states bots first asked bot rest}, fact states bots first asked (bot :: rest) →
    isBotEnabled states bot = true → fact states bots first (asked ++ [bot]) rest
  pass : ∀ {states bots first asked bot rest}, fact states bots first asked (bot :: rest) →
    isBotEnabled states bot = false → fact states bots first asked rest
  switch : ∀ {s : State Message} {running name enabled}, s.running = some running →
    ok s (.enableBot name enabled) = true →
    fact s.enabledBots running.bots running.botEnableStates running.asked running.remaining →
    fact (setEnabled s.enabledBots name enabled) running.bots running.botEnableStates
      running.asked running.remaining

/-- The running loop and all that have ended have this fact. -/
structure Recorded (fact : Turns) (s : State Message) : Prop where
  running : ∀ running, s.running = some running →
    fact s.enabledBots running.bots running.botEnableStates running.asked running.remaining
  main : ∀ block ∈ s.main, ∃ states,
    fact states block.bots block.botEnableStates block.asked []
  answers : ∀ answer ∈ s.answers, ∃ states,
    fact states answer.block.bots answer.block.botEnableStates answer.block.asked []

variable {ok : State Message → Action Message → Bool} {fact : Turns}

omit [DecidableEq Message] in
theorem Recorded.step {action : Action Message} (h : Recorded fact s)
    (hkept : KeptByTurns ok fact) (hok : ok s action = true) (hstep : Step process s action t) :
    Recorded fact t := by
  cases hstep with
  | called messages => exact ⟨h.running, h.main, h.answers⟩
  | switched name enabled =>
      exact ⟨fun running hrunning => hkept.switch hrunning hok (h.running running hrunning),
        h.main, h.answers⟩
  | appended newBot => exact ⟨h.running, h.main, h.answers⟩
  | started request rest hrunning hqueue =>
      refine ⟨fun running hrunning => ?_, h.main, h.answers⟩
      cases hrunning
      exact hkept.start
  | asked running bot remaining hrunning hremaining henabled =>
      have hfact := h.running running hrunning
      rw [hremaining] at hfact
      refine ⟨fun after hafter => ?_, h.main, h.answers⟩
      cases hafter
      exact hkept.ask hfact henabled
  | passed running bot remaining hrunning hremaining hdisabled =>
      have hfact := h.running running hrunning
      rw [hremaining] at hfact
      refine ⟨fun after hafter => ?_, h.main, h.answers⟩
      cases hafter
      exact hkept.pass hfact hdisabled
  | worked running i localQueue hrunning hworked =>
      refine ⟨fun after hafter => ?_, h.main, h.answers⟩
      cases hafter
      exact h.running running hrunning
  | finished running hrunning hremaining hfinished =>
      have hfact := h.running running hrunning
      rw [hremaining] at hfact
      refine ⟨?_, fun block hblock => ?_, h.answers⟩
      · intro after hafter
        cases hafter
      · rcases List.mem_append.mp hblock with hold | hnew
        · exact h.main block hold
        · rw [List.mem_singleton.mp hnew]
          exact ⟨s.enabledBots, hfact⟩
  | answered block rest hmain hmatch =>
      have hpending := List.forall_mem_cons.mp (hmain ▸ h.main)
      refine ⟨h.running, hpending.2, fun answer hanswer => ?_⟩
      rcases List.mem_append.mp hanswer with hold | hnew
      · exact h.answers answer hold
      · rw [List.mem_singleton.mp hnew]
        exact hpending.1
  | dropped block rest hmain hmatch =>
      exact ⟨h.running, (List.forall_mem_cons.mp (hmain ▸ h.main)).2, h.answers⟩

theorem recorded_of_reachable (hkept : KeptByTurns ok fact)
    (h : ((machine process bots enabledBots).restrict ok).Reachable s) : Recorded fact s := by
  refine h.restrict_induction ⟨?_, ?_, ?_⟩ fun _ _ _ _ hstate hok hnext =>
    hstate.step hkept hok (step_of_next hnext)
  · intro running hrunning
    cases hrunning
  · intro block hblock
    cases hblock
  · intro answer hanswer
    cases hanswer

/-- What was asked and what remains is part of the bots, in their order. -/
def inOrder : Turns := fun _ bots _ asked remaining => (asked ++ remaining).Sublist bots

omit [DecidableEq Message] in
theorem in_order_kept : KeptByTurns (fun (_ : State Message) _ => true) inOrder where
  start := List.Sublist.refl _
  ask := by
    intro states bots first asked bot rest h _
    simpa [inOrder] using h
  pass := fun h _ => ((List.sublist_cons_self _ _).append_left _).trans h
  switch := fun _ _ h => h

/-- The bots that a request has asked are some of those that its loop went over, in their order. -/
theorem asked_sublist (h : (machine process bots enabledBots).Reachable s) {answer : Answer Message}
    (hanswer : answer ∈ s.answers) : answer.block.asked.Sublist answer.block.bots := by
  obtain ⟨states, hsublist⟩ := (recorded_of_reachable in_order_kept h).answers answer hanswer
  simpa [inOrder] using hsublist

/-- A completion is given the results of the bots that were asked. -/
theorem results_perm (h : (machine process bots enabledBots).Reachable s) {answer : Answer Message}
    (hanswer : answer ∈ s.answers) :
    answer.results.Perm (appended process answer.block.request.messages answer.block.asked) := by
  have hatomic := atomic_reachable h (List.nil_sublist s.remaining)
  obtain ⟨hgathered, hresults⟩ := (collected_of_reachable hatomic).answers answer.atomic
    (List.mem_map_of_mem hanswer)
  have hall : answer.block.atomic.enabledBots = answer.block.asked :=
    List.filter_eq_self.mpr fun _ _ => rfl
  have hgiven : answer.results = resultsWithAssistantHandling answer.block.results := hresults
  have hblock : answer.block.results =
    appended process answer.block.request.messages answer.block.order := hgathered.results
  rw [hgiven]
  refine (results_with_assistant_handling_perm _).trans ?_
  rw [hblock]
  exact appended_perm (hall ▸ hgathered.order) _

/-- Every run is a run of the machine that reads the bots and the stored states in one step; the
bots it reads there are those that were asked here, which are some of the bots in their order. So
a completion is given the results of these bots that are not empty, each once. -/
theorem loop_refines (h : (machine process bots enabledBots).Reachable s) :
    (Messages.machine process).Reachable (s.atomic []) ∧
    ∀ answer ∈ s.answers, answer.block.asked.Sublist answer.block.bots ∧
      answer.results.Perm
        (appended process answer.block.request.messages answer.block.asked) :=
  ⟨atomic_reachable h (List.nil_sublist s.remaining), fun _ hanswer =>
    ⟨asked_sublist h hanswer, results_perm h hanswer⟩⟩

/-- A request during which the second bot is switched off, and a third one is taken up. -/
def switchedOff : List (Action String) :=
  [.handleMessages ["a"], .start, .turn, .work 0, .enableBot "tsoy" false, .turn,
    .append (.named "pushkin"), .work 0, .work 0, .work 0, .finish, .runBlock]

/-- The machine in which all bots answer everything. -/
def answering : Machine (State String) (Action String) :=
  machine (fun bot _ => ⟨bot, [⟨["hello"], "greeting"⟩]⟩) [.named "snow", .named "tsoy"]
    fun _ => none

theorem loop_refines_run :
    ∃ (s : State String) (answer : Answer String), answering.Reachable s ∧ answer ∈ s.answers ∧
      answer.block.asked = [.named "snow"] ∧
      answer.results.map (fun result => result.bot.name) = ["snow"] ∧
      answer.block.asked.Sublist answer.block.bots := by
  obtain ⟨s, hs, hanswers⟩ := answering.exists_reachable switchedOff
    (fun s => s.answers.map (fun answer =>
      (answer.block.asked, answer.results.map fun result => result.bot.name)) =
      [([.named "snow"], ["snow"])]) (by decide)
  obtain ⟨answer, hsingle, hgiven⟩ := List.map_eq_singleton_iff.mp hanswers
  have hmem : answer ∈ s.answers := hsingle ▸ List.mem_cons_self
  obtain ⟨hasked, hnames⟩ := Prod.mk.inj hgiven
  exact ⟨s, answer, hs, hmem, hasked, hnames, ((loop_refines hs).2 answer hmem).1⟩

end AiGramLib.Messages.Loop
