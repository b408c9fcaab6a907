import AiGramLib.Purchases.Machine

/-!
# What a step of a purchase can do

`Effect` lists the possible changes of a state with the facts the source has checked when it
makes them, and `step_effect` finds the one of a given step. The invariants are proved from it,
starting with `ready_of_reachable`.
-/

namespace AiGramLib.Purchases

open Transition

/-- A call of `buyBot` for this bot adds a payment: the bot is not installed, and there is a
product for it. -/
def registers (s : State) (bot : ChatBot) : Bool :=
  !isBotBought s bot &&
    s.loader.products.any fun product => product.productIdentifier == idOfBot bot

/-- The changes that a step can make. -/
inductive Effect (s : State) : Action → State → Prop where
  /-- Nothing but the loader, `userId` and the transactions to come is changed. -/
  | quiet (action : Action) (loader : Loader.State) (userId : Option Int)
      (handling : List Transaction) : Effect s action { s with loader, userId, handling }
  | answered (bot : ChatBot) :
      Effect s (.buyBot bot) { s with
        calls := s.calls + 1
        answers := s.answers ++ [⟨s.calls, bot.isLocal s.fs, bot.isLocal s.fs⟩] }
  | registered (bot : ChatBot) (hregisters : registers s bot = true) :
      Effect s (.buyBot bot) { s with
        calls := s.calls + 1
        buyCompletions := s.buyCompletions.insert (idOfBot bot) ⟨s.calls, bot⟩
        payments := s.payments ++ [⟨s.calls, idOfBot bot⟩] }
  | returned (productIdentifier : String) (hreturning : s.returning = some productIdentifier) :
      Effect s .continue { s with
        returning := none
        buyCompletions := s.buyCompletions.erase productIdentifier }
  | purchased (transaction : Transaction) (rest : List Transaction) (bot : ChatBot)
      (hreturning : s.returning = none) (hhandling : s.handling = transaction :: rest)
      (hstate : transaction.transactionState = .purchased)
      (hbot : purchasedBot s.loader.loadedBotsInStore transaction.productIdentifier = some bot) :
      Effect s .continue { s with
        handling := rest
        finished := s.finished ++ [transaction]
        payments := s.payments.filter fun payment => !transaction.ends payment
        installations :=
          s.installations ++ [⟨transaction.productIdentifier, bot, .copying .guards⟩] }
  | lost (transaction : Transaction) (rest : List Transaction)
      (hreturning : s.returning = none) (hhandling : s.handling = transaction :: rest)
      (hstate : transaction.transactionState = .purchased)
      (hbot : purchasedBot s.loader.loadedBotsInStore transaction.productIdentifier = none) :
      Effect s .continue { s with
        handling := rest
        finished := s.finished ++ [transaction]
        payments := s.payments.filter fun payment => !transaction.ends payment }
  | restored (transaction : Transaction) (rest : List Transaction)
      (hreturning : s.returning = none) (hhandling : s.handling = transaction :: rest)
      (hstate : transaction.transactionState = .restored) :
      Effect s .continue { s with handling := rest, finished := s.finished ++ [transaction] }
  | failed (transaction : Transaction) (rest : List Transaction)
      (hreturning : s.returning = none) (hhandling : s.handling = transaction :: rest)
      (hstate : transaction.transactionState = .failed) :
      Effect s .continue (report { s with
        handling := rest
        finished := s.finished ++ [transaction]
        payments := s.payments.filter fun payment => !transaction.ends payment }
        transaction.productIdentifier false)
  | copied (i : Nat) (outcome : Outcome) (installation : Installation) (stage : CopyStage)
      (effect : CopyEffect) (hinstallation : s.installations[i]? = some installation)
      (hstage : installation.stage = .copying stage)
      (hstep : copyStep installation.bot s.fs stage outcome = some effect) :
      Effect s (.copy i outcome) { s with
        fs := effect.fs
        installations :=
          s.installations.set i { installation with stage := .copying effect.stage } }
  | proceeded (i : Nat) (failed : Bool) (installation : Installation) (stage : Stage)
      (hinstallation : s.installations[i]? = some installation)
      (hstage : nextStage s failed installation.stage = some stage) :
      Effect s (.proceed i failed) { s with
        installations := s.installations.set i { installation with stage } }
  | delivered (i : Nat) (installation : Installation) (copied : Bool)
      (hreturning : s.returning = none)
      (hinstallation : s.installations[i]? = some installation)
      (hstage : installation.stage = .reporting copied) :
      Effect s (.deliver i) (report { s with installations := s.installations.eraseIdx i }
        installation.productIdentifier copied)
  | launched : Effect s .launch (launch s)

variable {s t : State} {action : Action}

theorem buy_bot_effect (s : State) (bot : ChatBot) : Effect s (.buyBot bot) (buyBot s bot) := by
  unfold buyBot
  cases hlocal : isBotBought s bot with
  | true =>
      have hvalue : bot.isLocal s.fs = true := hlocal
      simpa [hvalue] using Effect.answered (s := s) bot
  | false =>
      have hvalue : bot.isLocal s.fs = false := hlocal
      simp only [Bool.false_eq_true, if_false]
      split
      · simpa [hvalue] using Effect.answered (s := s) bot
      · rename_i product hproduct
        have hid : product.productIdentifier = idOfBot bot := by
          simpa using List.find?_some hproduct
        have hregisters : registers s bot = true := by
          simp only [registers, hlocal, Bool.not_false, Bool.true_and, List.any_eq_true]
          exact ⟨product, List.mem_of_find?_eq_some hproduct, by simpa using hid⟩
        rw [hid]
        exact .registered bot hregisters

theorem continue_effect (h : continueStep s = some t) : Effect s .continue t := by
  unfold continueStep at h
  split at h
  · rename_i handling productIdentifier hreturning
    cases h
    exact .returned productIdentifier hreturning
  · rename_i transaction rest hreturning hhandling
    cases h
    unfold handle
    split
    · exact .quiet .continue s.loader s.userId rest
    · rename_i hstate
      dsimp only
      split
      · rename_i hbot
        exact .lost transaction rest hreturning hhandling hstate hbot
      · rename_i bot hbot
        exact .purchased transaction rest bot hreturning hhandling hstate hbot
    · rename_i hstate
      exact .failed transaction rest hreturning hhandling hstate
    · rename_i hstate
      exact .restored transaction rest hreturning hhandling hstate
    · exact .quiet .continue s.loader s.userId rest
  · cases h

theorem copy_effect {i : Nat} {outcome : Outcome} (h : copy s i outcome = some t) :
    Effect s (.copy i outcome) t := by
  obtain ⟨installation, hinstallation, h⟩ := Option.bind_eq_some_iff.mp h
  split at h
  · rename_i stage hstage
    obtain ⟨effect, hstep, h⟩ := Option.bind_eq_some_iff.mp h
    cases h
    exact .copied i outcome installation stage effect hinstallation hstage hstep
  · cases h

theorem proceed_effect {i : Nat} {failed : Bool} (h : proceed s i failed = some t) :
    Effect s (.proceed i failed) t := by
  obtain ⟨installation, hinstallation, h⟩ := Option.bind_eq_some_iff.mp h
  obtain ⟨stage, hstage, h⟩ := Option.bind_eq_some_iff.mp h
  cases h
  exact .proceeded i failed installation stage hinstallation hstage

theorem deliver_effect {i : Nat} (h : deliver s i = some t) : Effect s (.deliver i) t := by
  obtain ⟨installation, hinstallation, h⟩ := Option.bind_eq_some_iff.mp h
  split at h
  · rename_i copied hstage
    split at h
    · rename_i hidle
      have hreturning : s.returning = none := by
        simp only [State.mainIdle, Bool.and_eq_true, Option.isNone_iff_eq_none] at hidle
        exact hidle.1.1
      cases h
      exact .delivered i installation copied hreturning hinstallation hstage
    · cases h
  · cases h

variable {fs : FileSystem} {urls : List URL}

/-- Every step has one of the effects. -/
theorem step_effect (h : (machine fs urls).next s action = some t) : Effect s action t := by
  cases action with
  | setUserId userId =>
      cases h
      exact .quiet _ s.loader (some userId) s.handling
  | buyBot bot =>
      simp only [machine] at h
      split at h
      · cases h
        exact buy_bot_effect s bot
      · cases h
  | loader action =>
      simp only [machine] at h
      split at h
      · obtain ⟨loader, -, h⟩ := Option.map_eq_some_iff.mp h
        cases h
        exact .quiet _ loader s.userId s.handling
      · cases h
  | updatedTransactions transactions =>
      simp only [machine] at h
      split at h
      · cases h
        exact .quiet _ s.loader s.userId transactions
      · cases h
  | «continue» => exact continue_effect h
  | copy i outcome => exact copy_effect h
  | proceed i failed => exact proceed_effect h
  | deliver i => exact deliver_effect h
  | launch =>
      cases h
      exact .launched

/-- Once `copyBot` has returned, it is not called again. -/
theorem nextStage_ne_copying {failed : Bool} {stage : Stage} {point : CopyStage} :
    nextStage s failed stage ≠ some (.copying point) := by
  intro h
  unfold nextStage at h
  repeat' split at h
  all_goals cases h

/-- What the `copyBot` of an installation has found. -/
def Installation.Ready (installation : Installation) (fs : FileSystem) : Prop :=
  match installation.stage with
  | .copying stage => stage.Ready installation.bot fs
  | _ => True

/-- Every step keeps what the calls of `copyBot` have found. -/
theorem Effect.ready (h : Effect s action t)
    (hready : ∀ installation ∈ s.installations, installation.Ready s.fs) :
    ∀ installation ∈ t.installations, installation.Ready t.fs := by
  cases h with
  | quiet => exact hready
  | answered => exact hready
  | registered => exact hready
  | returned => exact hready
  | lost => exact hready
  | restored => exact hready
  | failed => simpa using hready
  | purchased =>
      intro installation hmem
      rcases List.mem_append.mp hmem with hold | hnew
      · exact hready installation hold
      · rw [List.mem_singleton.mp hnew]
        trivial
  | copied i outcome installation stage effect hinstallation hstage hstep =>
      have hown : stage.Ready installation.bot s.fs := by
        simpa [Installation.Ready, hstage] using
          hready installation (List.mem_of_getElem? hinstallation)
      intro other hmem
      rcases List.mem_or_eq_of_mem_set hmem with hold | rfl
      · have hother := hready other hold
        unfold Installation.Ready at hother ⊢
        cases hpoint : other.stage with
        | copying point =>
            rw [hpoint] at hother
            exact CopyStage.Ready.mono hother hstep
        | _ => trivial
      · exact hown.step hstep
  | proceeded i failed installation stage hinstallation hstage =>
      intro other hmem
      rcases List.mem_or_eq_of_mem_set hmem with hold | rfl
      · exact hready other hold
      · cases stage with
        | copying point => simp [nextStage_ne_copying] at hstage
        | _ => trivial
  | delivered =>
      intro installation hmem
      rw [report_installations] at hmem
      rw [report_fs]
      exact hready installation (List.mem_of_mem_eraseIdx hmem)
  | launched =>
      intro installation hmem
      cases hmem

theorem ready_of_reachable (h : (machine fs urls).Reachable s) :
    ∀ installation ∈ s.installations, installation.Ready s.fs :=
  h.invariant (P := fun s => ∀ installation ∈ s.installations, installation.Ready s.fs)
    (fun installation hmem => by cases hmem)
    fun _ _ _ hready hnext => (step_effect hnext).ready hready

/-- The completion under a product identifier that has not been invoked. -/
def State.waiting (s : State) (productIdentifier : String) : Option Completion :=
  if s.returning = some productIdentifier then none
  else s.buyCompletions.lookup productIdentifier

theorem waiting_of_returning_none (h : s.returning = none) (productIdentifier : String) :
    s.waiting productIdentifier = s.buyCompletions.lookup productIdentifier := by
  simp [State.waiting, h]

/-- After a report nobody waits under its product identifier. -/
theorem waiting_report (h : s.returning = none) (productIdentifier other : String)
    (value : Bool) :
    (report s productIdentifier value).waiting other =
      if other = productIdentifier then none else s.waiting other := by
  unfold report
  split
  · by_cases hother : other = productIdentifier
    · simp [State.waiting, hother]
    · simp [State.waiting, h, hother, Ne.symm hother]
  · rename_i hnone
    split
    · rename_i hother
      rw [waiting_of_returning_none h, hother, hnone]
    · rfl

/-- Who waits after a call has been registered is that call, or has waited before. -/
theorem waiting_registered {bot : ChatBot} {other : String} {completion : Completion}
    (h : State.waiting { s with
      calls := s.calls + 1
      buyCompletions := s.buyCompletions.insert (idOfBot bot) ⟨s.calls, bot⟩
      payments := s.payments ++ [⟨s.calls, idOfBot bot⟩] } other = some completion) :
    other = idOfBot bot ∧ completion = ⟨s.calls, bot⟩ ∨ s.waiting other = some completion := by
  unfold State.waiting at h ⊢
  dsimp only at h
  split at h
  · cases h
  · rename_i hreturning
    by_cases hother : other = idOfBot bot
    · subst hother
      rw [AList.lookup_insert] at h
      exact .inl ⟨rfl, (Option.some.inj h).symm⟩
    · rw [AList.lookup_insert_ne hother] at h
      exact .inr (by rw [if_neg hreturning, h])

/-- The `removeValue` after a completion removes what has been served already. -/
theorem waiting_returned {productIdentifier : String}
    (h : s.returning = some productIdentifier) (other : String) :
    State.waiting { s with
      returning := none
      buyCompletions := s.buyCompletions.erase productIdentifier } other = s.waiting other := by
  simp only [State.waiting, h, Option.some.injEq, reduceCtorEq, if_false]
  by_cases hother : other = productIdentifier
  · subst hother
    simp
  · simp [Ne.symm hother, AList.lookup_erase_ne hother]

end AiGramLib.Purchases
