import AiGramLib.Messages.Order
import AiGramLib.Messages.Turns

/-!
# A bot that is there is asked

Requests are made while others are still unfinished, and the list of bots and the switches change
at any time. `present_bot_answers` says what a request can rely on all the same: a bot that is in
the list and switched on when the request is made is asked by it, unless it is switched off after
all. What a loop went over is always the beginning of the list as it is later (`Read`).
-/

namespace AiGramLib.Messages.Loop

open Transition

variable {Message : Type}

/-- The bots of this name are not switched off. -/
def staysOn (name : ChatBotId) (_ : State Message) : Action Message → Bool
  | .enableBot other enabled => enabled || other != name
  | _ => true

/-- A switch that is not turned off stays on. -/
theorem enabled_of_switch {states : ChatBotId → Option Bool} {bot : ChatBot} {other : ChatBotId}
    {enabled : Bool} (h : isBotEnabled states bot = true)
    (hstays : (enabled || other != bot.name) = true) :
    isBotEnabled (setEnabled states other enabled) bot = true := by
  by_cases hother : bot.name = other
  · have henabled : enabled = true := by simpa [hother] using hstays
    simp [isBotEnabled, setEnabled, hother, henabled]
  · simpa [isBotEnabled, setEnabled, hother] using h

/-- The bot is in the list and switched on, and the requests from this call on have asked it or
come to it yet. -/
structure Present (first : Nat) (bot : ChatBot) (s : State Message) : Prop where
  listed : bot ∈ s.bots
  enabled : isBotEnabled s.enabledBots bot = true
  running : ∀ running, s.running = some running → first ≤ running.request.call →
    bot ∈ running.asked ++ running.remaining
  main : ∀ block ∈ s.main, first ≤ block.request.call → bot ∈ block.asked
  answers : ∀ answer ∈ s.answers, first ≤ answer.block.request.call → bot ∈ answer.block.asked

/-- What the loops went over is the beginning of the list. -/
structure Read (s : State Message) : Prop where
  running : ∀ running, s.running = some running → running.bots <+: s.bots
  main : ∀ block ∈ s.main, block.bots <+: s.bots
  answers : ∀ answer ∈ s.answers, answer.block.bots <+: s.bots

variable [DecidableEq Message] {process : ChatBot → List Message → ChatBotResult}
  {bots : List ChatBot} {enabledBots : ChatBotId → Option Bool} {s t : State Message}
  {action : Action Message} {first : Nat} {bot : ChatBot}

omit [DecidableEq Message] in
theorem Present.step (h : Present first bot s) (hstays : staysOn bot.name s action = true)
    (hstep : Step process s action t) : Present first bot t := by
  cases hstep with
  | called messages => exact ⟨h.listed, h.enabled, h.running, h.main, h.answers⟩
  | switched other enabled =>
      exact ⟨h.listed, enabled_of_switch h.enabled hstays, h.running, h.main, h.answers⟩
  | appended newBot =>
      exact ⟨(prefix_append_bot s.bots newBot).1.subset h.listed, h.enabled, h.running, h.main,
        h.answers⟩
  | started request rest hrunning hqueue =>
      refine ⟨h.listed, h.enabled, fun running hrunning _ => ?_, h.main, h.answers⟩
      cases hrunning
      exact h.listed
  | asked running next remaining hrunning hremaining henabled =>
      have hasked := h.running running hrunning
      rw [hremaining] at hasked
      refine ⟨h.listed, h.enabled, fun after hafter hfirst => ?_, h.main, h.answers⟩
      cases hafter
      simpa using hasked hfirst
  | passed running next remaining hrunning hremaining hdisabled =>
      have hasked := h.running running hrunning
      rw [hremaining] at hasked
      -- the bot that is passed over is switched off
      have hne : bot ≠ next := by
        rintro rfl
        exact Bool.eq_false_iff.mp hdisabled h.enabled
      refine ⟨h.listed, h.enabled, fun after hafter hfirst => ?_, h.main, h.answers⟩
      cases hafter
      simpa [hne] using hasked hfirst
  | worked running i localQueue hrunning hworked =>
      refine ⟨h.listed, h.enabled, fun after hafter => ?_, h.main, h.answers⟩
      cases hafter
      exact h.running running hrunning
  | finished running hrunning hremaining hfinished =>
      have hasked := h.running running hrunning
      rw [hremaining, List.append_nil] at hasked
      refine ⟨h.listed, h.enabled, ?_, fun block hblock hfirst => ?_, h.answers⟩
      · intro after hafter
        cases hafter
      · rcases List.mem_append.mp hblock with hold | hnew
        · exact h.main block hold hfirst
        · rw [List.mem_singleton.mp hnew] at hfirst ⊢
          exact hasked hfirst
  | answered block rest hmain hmatch =>
      have hpending := List.forall_mem_cons.mp (hmain ▸ h.main)
      refine ⟨h.listed, h.enabled, h.running, hpending.2, fun answer hanswer hfirst => ?_⟩
      rcases List.mem_append.mp hanswer with hold | hnew
      · exact h.answers answer hold hfirst
      · rw [List.mem_singleton.mp hnew] at hfirst ⊢
        exact hpending.1 hfirst
  | dropped block rest hmain hmatch =>
      exact ⟨h.listed, h.enabled, h.running, (List.forall_mem_cons.mp (hmain ▸ h.main)).2,
        h.answers⟩

omit [DecidableEq Message] in
theorem pending_call_lt {state : Messages.State Message} (h : Ordered state)
    {request : Request Message} (hrequest : request ∈ state.pending) :
    request.call < state.calls.length := by
  rw [h.pending, requests] at hrequest
  obtain ⟨i, hi, rfl⟩ := List.mem_mapIdx.mp (List.mem_of_mem_drop hrequest)
  exact hi

/-- Of the requests in sight none has been made from now on. -/
theorem present_of_reachable (h : (machine process bots enabledBots).Reachable s)
    (hlisted : bot ∈ s.bots) (henabled : isBotEnabled s.enabledBots bot = true) :
    Present s.calls.length bot s := by
  obtain ⟨hordered, hhonest⟩ :=
    ordered_and_honest_of_reachable (atomic_reachable h (List.nil_sublist s.remaining))
  have hpending : ∀ request ∈ (s.atomic []).pending, request.call < s.calls.length :=
    fun request hrequest => pending_call_lt hordered hrequest
  simp only [Messages.State.pending, State.atomic, List.map_map, List.mem_append] at hpending
  refine ⟨hlisted, henabled, fun running hrunning hfirst => ?_, fun block hblock hfirst => ?_,
    fun answer hanswer hfirst => ?_⟩
  · have hlt := hpending running.request (.inl (.inr (by simp [hrunning, Running.atomic])))
    exact absurd hfirst (Nat.not_le.mpr hlt)
  · have hlt := hpending block.request (.inl (.inl (List.mem_map.mpr ⟨block, hblock, rfl⟩)))
    exact absurd hfirst (Nat.not_le.mpr hlt)
  · have hlt : answer.block.request.call < s.handled :=
      hhonest.handled answer.atomic (List.mem_map_of_mem hanswer)
    have hle : s.handled ≤ s.calls.length := hordered.handled_le
    omega

/-- A bot that is in the list and switched on when a request is made, and is not switched off
later, answers it. -/
theorem present_bot_answers (h : (machine process bots enabledBots).Reachable s)
    (hlisted : bot ∈ s.bots) (henabled : isBotEnabled s.enabledBots bot = true)
    (ht : ((machine process bots enabledBots).restrict (staysOn bot.name)).Reaches s t)
    {answer : Answer Message} (hanswer : answer ∈ t.answers)
    (hmade : s.calls.length ≤ answer.block.request.call)
    (hresponses : (process bot answer.block.request.messages).responses ≠ []) :
    process bot answer.block.request.messages ∈ answer.results := by
  have hpresent : Present s.calls.length bot t :=
    ht.restrict_induction (present_of_reachable h hlisted henabled)
      fun _ _ _ _ hstate hstays hnext => hstate.step hstays (step_of_next hnext)
  refine (results_perm (h.trans ht.of_restrict) hanswer).symm.subset ?_
  refine List.mem_filter.mpr ⟨?_, by simpa using hresponses⟩
  exact List.mem_map_of_mem (hpresent.answers answer hanswer hmade)

omit [DecidableEq Message] in
theorem Read.step (h : Read s) (hstep : Step process s action t) : Read t := by
  cases hstep with
  | called messages => exact ⟨h.running, h.main, h.answers⟩
  | switched name enabled => exact ⟨h.running, h.main, h.answers⟩
  | appended newBot =>
      have hgrows := (prefix_append_bot s.bots newBot).1
      exact ⟨fun running hrunning => (h.running running hrunning).trans hgrows,
        fun block hblock => (h.main block hblock).trans hgrows,
        fun answer hanswer => (h.answers answer hanswer).trans hgrows⟩
  | started request rest hrunning hqueue =>
      refine ⟨fun running hrunning => ?_, h.main, h.answers⟩
      cases hrunning
      exact List.prefix_rfl
  | asked running bot remaining hrunning =>
      refine ⟨fun after hafter => ?_, h.main, h.answers⟩
      cases hafter
      exact h.running running hrunning
  | passed running bot remaining hrunning =>
      refine ⟨fun after hafter => ?_, h.main, h.answers⟩
      cases hafter
      exact h.running running hrunning
  | worked running i localQueue hrunning =>
      refine ⟨fun after hafter => ?_, h.main, h.answers⟩
      cases hafter
      exact h.running running hrunning
  | finished running hrunning hremaining hfinished =>
      refine ⟨?_, fun block hblock => ?_, h.answers⟩
      · intro after hafter
        cases hafter
      · rcases List.mem_append.mp hblock with hold | hnew
        · exact h.main block hold
        · rw [List.mem_singleton.mp hnew]
          exact h.running running hrunning
  | answered block rest hmain hmatch =>
      have hpending := List.forall_mem_cons.mp (hmain ▸ h.main)
      refine ⟨h.running, hpending.2, fun answer hanswer => ?_⟩
      rcases List.mem_append.mp hanswer with hold | hnew
      · exact h.answers answer hold
      · rw [List.mem_singleton.mp hnew]
        exact hpending.1
  | dropped block rest hmain hmatch =>
      exact ⟨h.running, (List.forall_mem_cons.mp (hmain ▸ h.main)).2, h.answers⟩

theorem read_of_reachable (h : (machine process bots enabledBots).Reachable s) : Read s := by
  refine h.invariant (P := Read) ⟨?_, ?_, ?_⟩ fun _ _ _ hstate hnext =>
    hstate.step (step_of_next hnext)
  · intro running hrunning
    cases hrunning
  · intro block hblock
    cases hblock
  · intro answer hanswer
    cases hanswer

/-- No name is given to a completion twice, if none is in the list of bots twice. -/
theorem answer_names_nodup (h : (machine process bots enabledBots).Reachable s)
    (hprocess : ∀ bot messages, (process bot messages).bot = bot)
    (hnames : (s.bots.map ChatBot.name).Nodup) {answer : Answer Message}
    (hanswer : answer ∈ s.answers) :
    (answer.results.map fun result => result.bot.name).Nodup := by
  have hasked : (answer.block.asked.map ChatBot.name).Nodup :=
    hnames.sublist (((asked_sublist h hanswer).trans
      ((read_of_reachable h).answers answer hanswer).sublist).map _)
  have hresults := (results_perm h hanswer).map fun result => result.bot.name
  refine hresults.nodup_iff.mpr (List.Nodup.sublist (List.filter_sublist.map _) ?_)
  simpa [hprocess, Function.comp_def] using hasked

end AiGramLib.Messages.Loop
