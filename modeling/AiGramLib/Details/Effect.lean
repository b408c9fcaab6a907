import AiGramLib.Details.Machine

/-!
# What a step of a server call does

`step_of_next` lists the steps, with what has been checked before each. A handler leaves the
table, the history of what was stored and the answers alone, and dispatches one block at most
(`Handler.block?`). Only main blocks do more, and they leave the data tasks and the record of the
ended requests alone.
-/

namespace AiGramLib.Details

/-- The block that a handler dispatches. -/
def Handler.block? (handler : Handler) (data : Option Payload) (error : Option String) :
    Option Block :=
  match handler with
  | .firstStart => none
  | .vote call => error.map (.voteFailed call)
  | .enabling call => if error.isNone then none else some (.enablingFailed call)
  | .voting call => some (.rated call (decodeRated data))
  | .details refresh => some (.received refresh (decodeDetails data error))

variable {s t : State} {enabledBots : AList fun _ : ChatBotId => Bool} {wasStartedBefore : Bool}

/-- The steps from a state. -/
inductive Step (s : State) : Action → State → Prop where
  | startedBefore (userId : Int) (hstarted : s.wasStartedBefore = true) :
      Step s (.sendFirstStartIfNeeded userId) s
  | firstStart (userId : Int) (function : String) (hstarted : s.wasStartedBefore = false) :
      Step s (.sendFirstStartIfNeeded userId) (request s function .firstStart)
  | rateBot (bot : ChatBot) (rating userId : Int) :
      Step s (.rateBot bot rating userId) (rateBot s bot rating userId)
  | enableBot (bot : ChatBot) (enabled : Bool) (userId : Int) :
      Step s (.enableBot bot enabled userId) (enableBot s bot enabled userId)
  | isBotRatedBy (userId : Int) (bot : ChatBot) :
      Step s (.isBotRatedBy userId bot) (isBotRatedBy s userId bot)
  | responded (i : Nat) (data : Option Payload) (error : Option String) (task : DataTask)
      (htask : s.tasks[i]? = some task) :
      Step s (.respond i data error)
        (handle { s with tasks := s.tasks.eraseIdx i } task.handler data error)
  | ran (block : Block) (rest : List Block) (hmain : s.main = block :: rest) :
      Step s .runBlock (runMain { s with main := rest } block)

theorem step_of_next {action : Action}
    (h : (machine enabledBots wasStartedBefore).next s action = some t) : Step s action t := by
  cases action with
  | sendFirstStartIfNeeded userId =>
      cases h
      cases hstarted : s.wasStartedBefore with
      | true =>
          rw [sendFirstStartIfNeeded, if_pos hstarted]
          exact .startedBefore userId hstarted
      | false =>
          rw [sendFirstStartIfNeeded, if_neg (by simp [hstarted])]
          exact .firstStart userId _ hstarted
  | rateBot bot rating userId =>
      cases h
      exact .rateBot bot rating userId
  | enableBot bot enabled userId =>
      cases h
      exact .enableBot bot enabled userId
  | isBotRatedBy userId bot =>
      cases h
      exact .isBotRatedBy userId bot
  | respond i data error =>
      obtain ⟨task, htask, h⟩ := Option.bind_eq_some_iff.mp h
      cases h
      exact .responded i data error task htask
  | runBlock =>
      simp only [machine] at h
      split at h <;> cases h
      rename_i block rest hmain
      exact .ran block rest hmain

theorem handle_main (s : State) (handler : Handler) (data : Option Payload)
    (error : Option String) :
    (handle s handler data error).main = s.main ++ (handler.block? data error).toList := by
  cases handler with
  | firstStart =>
      cases error <;> exact (List.append_nil _).symm
  | vote | enabling =>
      cases error with
      | none => exact (List.append_nil _).symm
      | some error => rfl
  | voting | details => rfl

/-- Handlers neither store nor answer, and make no calls. -/
theorem handle_frame (s : State) (handler : Handler) (data : Option Payload)
    (error : Option String) :
    (handle s handler data error).botsDetailsFromBack = s.botsDetailsFromBack ∧
    (handle s handler data error).applied = s.applied ∧
    (handle s handler data error).answers = s.answers ∧
    (handle s handler data error).calls = s.calls ∧
    s.ended ⊆ (handle s handler data error).ended := by
  cases handler with
  | firstStart => cases error <;> exact ⟨rfl, rfl, rfl, rfl, List.Subset.refl _⟩
  | vote | enabling =>
      cases error <;> exact ⟨rfl, rfl, rfl, rfl, List.subset_append_left _ _⟩
  | voting | details => exact ⟨rfl, rfl, rfl, rfl, List.Subset.refl _⟩

/-- Main blocks make no calls and no requests, and take nothing out of the history. -/
theorem run_main_frame (s : State) (block : Block) :
    (runMain s block).tasks = s.tasks ∧ (runMain s block).started = s.started ∧
    (runMain s block).calls = s.calls ∧ (runMain s block).ended = s.ended ∧
    s.applied ⊆ (runMain s block).applied := by
  cases block with
  | received refresh outcome =>
      obtain ⟨number, caller⟩ := refresh
      cases caller with
      | start => exact ⟨rfl, rfl, rfl, rfl, List.subset_append_left _ _⟩
      | _ => exact ⟨rfl, rfl, rfl, rfl, List.Subset.refl _⟩
  | store refresh outcome =>
      obtain ⟨number, caller⟩ := refresh
      cases caller <;> exact ⟨rfl, rfl, rfl, rfl, List.subset_append_left _ _⟩
  | voteFailed | enablingFailed | rated => exact ⟨rfl, rfl, rfl, rfl, List.Subset.refl _⟩

/-- A step either dispatches what a handler does and stores and answers nothing, or runs a main
block. -/
theorem step_effect {action : Action} (h : Step s action t) :
    (t.botsDetailsFromBack = s.botsDetailsFromBack ∧ t.applied = s.applied ∧
      t.answers = s.answers ∧ s.ended ⊆ t.ended ∧
      (t.main = s.main ∨ ∃ i data error task, action = .respond i data error ∧
        s.tasks[i]? = some task ∧ t.main = s.main ++ (task.handler.block? data error).toList)) ∨
    action = .runBlock ∧ ∃ block rest, s.main = block :: rest ∧
      t = runMain { s with main := rest } block := by
  cases h with
  | startedBefore | firstStart | rateBot | enableBot | isBotRatedBy =>
      exact .inl ⟨rfl, rfl, rfl, List.Subset.refl _, .inl rfl⟩
  | responded i data error task htask =>
      obtain ⟨htable, happlied, hanswers, _, hended⟩ :=
        handle_frame { s with tasks := s.tasks.eraseIdx i } task.handler data error
      exact .inl ⟨htable, happlied, hanswers, hended,
        .inr ⟨i, data, error, task, rfl, htask, handle_main ..⟩⟩
  | ran block rest hmain => exact .inr ⟨rfl, block, rest, hmain, rfl⟩

end AiGramLib.Details
