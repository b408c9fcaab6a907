import AiGramLib.Bots.Machine
import AiGramLib.Purchases.Effect

/-!
# One session of the app

Between two launches the machine of purchases runs side by side with the list of active bots:
the `copyBot` of an installation dispatches a main block that appends the reloaded bot. The main
queue is served in order, and that block was put on it before the one that reports the result of
the installation, which therefore waits for it.

Installations are numbered, so that blocks can be told apart; no code reads the numbers. Calls of
`copyBot` for other reasons than a purchase are left out.
-/

namespace AiGramLib.Session

open Transition

/-- The main block with which the `copyBot` of an installation appends its bot to `bots`. -/
structure Block where
  number : Nat
  newBot : ChatBot
  deriving DecidableEq

structure State where
  purchases : Purchases.State
  bots : List ChatBot
  /-- The numbers of the installations, in the order of `purchases.installations`. -/
  numbers : List Nat
  /-- How many installations there have been. -/
  dispatched : Nat
  /-- The blocks of `copyBot` on the main queue, the oldest first. -/
  main : List Block

/-- The state after `ChatBotsManager.init`, which has left these files and has listed these
URLs of the bundle and of the `chatbots` folder. -/
def State.initial (fs : FileSystem) (bundleUrls localUrls : List URL) : State where
  purchases := .initial fs
  bots := freeBots fs bundleUrls ++ localBots fs localUrls
  numbers := []
  dispatched := 0
  main := []

inductive Action where
  | purchases (action : Purchases.Action)
  /-- The next main block of `copyBot` runs. -/
  | append

/-- The bot that the next file operation of an installation reloads. -/
def reloaded (s : Purchases.State) (i : Nat) (outcome : Outcome) : Option ChatBot := do
  let installation ← s.installations[i]?
  match installation.stage with
  | .copying stage => (copyStep installation.bot s.fs stage outcome).bind CopyEffect.newBot
  | _ => none

/-- The main block of the `copyBot` of an installation is not on the main queue any more. -/
def State.appended (s : State) (i : Nat) : Bool :=
  s.numbers[i]?.all fun number => s.main.all fun block => block.number != number

/-- The steps of purchases within the session, in the order of the main queue. -/
def State.admits (s : State) : Purchases.Action → Bool
  | .launch => false
  | .deliver i => s.appended i
  | _ => true

/-- What a step of purchases does to the rest of the session. -/
def State.follow (s : State) (purchases : Purchases.State) : Purchases.Action → State
  | .continue =>
      if s.purchases.installations.length < purchases.installations.length then
        { s with
          purchases
          numbers := s.numbers ++ [s.dispatched]
          dispatched := s.dispatched + 1 }
      else { s with purchases }
  | .copy i outcome =>
      let block := s.numbers[i]?.bind fun number =>
        (reloaded s.purchases i outcome).map (Block.mk number)
      { s with purchases, main := s.main ++ block.toList }
  | .deliver i => { s with purchases, numbers := s.numbers.eraseIdx i }
  | _ => { s with purchases }

/-- The main block of a `copyBot`. -/
def append (s : State) : Option State :=
  match s.main with
  | [] => none
  | block :: rest =>
      if s.purchases.mainIdle then
        some { s with bots := appendBot s.bots block.newBot, main := rest }
      else none

/-- All interleavings, from a launch on. `urls` are the URLs of the bundle as the store lists
them. -/
def machine (fs : FileSystem) (bundleUrls localUrls urls : List URL) : Machine State Action where
  start := .initial fs bundleUrls localUrls
  next s
    | .purchases action =>
        if s.admits action then
          ((Purchases.machine fs urls).next s.purchases action).map fun purchases =>
            s.follow purchases action
        else none
    | .append => append s

/-- The steps of a session, as far as files, installations and active bots are concerned. -/
inductive Step (s : State) : Action → State → Prop where
  | quiet (action : Purchases.Action) (purchases : Purchases.State)
      (hfs : purchases.fs = s.purchases.fs)
      (hinstallations : purchases.installations = s.purchases.installations) :
      Step s (.purchases action) { s with purchases }
  | dispatched (purchases : Purchases.State) (productIdentifier : String) (bot : ChatBot)
      (hbot : bot ∈ s.purchases.loader.loadedBotsInStore) (hfs : purchases.fs = s.purchases.fs)
      (hinstallations : purchases.installations =
        s.purchases.installations ++ [⟨productIdentifier, bot, .copying .guards⟩]) :
      Step s (.purchases .continue) { s with
        purchases
        numbers := s.numbers ++ [s.dispatched]
        dispatched := s.dispatched + 1 }
  | copied (purchases : Purchases.State) (i : Nat) (outcome : Outcome)
      (installation : Purchases.Installation) (stage : CopyStage) (effect : CopyEffect)
      (hinstallation : s.purchases.installations[i]? = some installation)
      (hstage : installation.stage = .copying stage)
      (hstep : copyStep installation.bot s.purchases.fs stage outcome = some effect)
      (hfs : purchases.fs = effect.fs)
      (hinstallations : purchases.installations = s.purchases.installations.set i
        { installation with stage := .copying effect.stage }) :
      Step s (.purchases (.copy i outcome)) { s with
        purchases
        main := s.main ++
          (s.numbers[i]?.bind fun number => effect.newBot.map (Block.mk number)).toList }
  | proceeded (purchases : Purchases.State) (i : Nat) (failed : Bool)
      (installation : Purchases.Installation) (stage : Purchases.Stage)
      (hinstallation : s.purchases.installations[i]? = some installation)
      (hstage : Purchases.nextStage s.purchases failed installation.stage = some stage)
      (hfs : purchases.fs = s.purchases.fs)
      (hinstallations : purchases.installations =
        s.purchases.installations.set i { installation with stage }) :
      Step s (.purchases (.proceed i failed)) { s with purchases }
  | delivered (purchases : Purchases.State) (i : Nat) (installation : Purchases.Installation)
      (copied : Bool) (hinstallation : s.purchases.installations[i]? = some installation)
      (hstage : installation.stage = .reporting copied) (hfs : purchases.fs = s.purchases.fs)
      (hinstallations : purchases.installations = s.purchases.installations.eraseIdx i) :
      Step s (.purchases (.deliver i)) { s with
        purchases
        numbers := s.numbers.eraseIdx i }
  | appended (block : Block) (rest : List Block) (hmain : s.main = block :: rest) :
      Step s .append { s with bots := appendBot s.bots block.newBot, main := rest }

section

variable {s : State} {purchases : Purchases.State}

/-- A step of the main thread dispatches an installation for a bot that it finds, or none. -/
theorem step_of_continue (h : Purchases.continueStep s.purchases = some purchases) :
    Step s (.purchases .continue) (s.follow purchases .continue) := by
  have hquiet : ∀ {following : Purchases.State}, following.fs = s.purchases.fs →
      following.installations = s.purchases.installations →
      Step s (.purchases .continue) (s.follow following .continue) := by
    intro following hfs hinstallations
    rw [State.follow, if_neg (by rw [hinstallations]; exact Nat.lt_irrefl _)]
    exact .quiet _ following hfs hinstallations
  cases Purchases.continue_effect h with
  | quiet => exact hquiet rfl rfl
  | returned => exact hquiet rfl rfl
  | lost => exact hquiet rfl rfl
  | restored => exact hquiet rfl rfl
  | failed => exact hquiet (by simp) (by simp)
  | purchased transaction rest bot hreturning hhandling hstate hbot =>
      obtain ⟨nameSeq, -, hfound⟩ := Option.bind_eq_some_iff.mp hbot
      rw [State.follow, if_pos (by simp)]
      exact .dispatched _ _ bot (List.mem_of_find?_eq_some hfound) rfl rfl

theorem step_of_copy {i : Nat} {outcome : Outcome}
    (h : Purchases.copy s.purchases i outcome = some purchases) :
    Step s (.purchases (.copy i outcome)) (s.follow purchases (.copy i outcome)) := by
  obtain ⟨installation, hinstallation, h⟩ := Option.bind_eq_some_iff.mp h
  split at h
  · rename_i stage hstage
    obtain ⟨effect, hstep, h⟩ := Option.bind_eq_some_iff.mp h
    obtain rfl := Option.some.inj h
    have hreloaded : reloaded s.purchases i outcome = effect.newBot := by
      simp [reloaded, hinstallation, hstage, hstep]
    simp only [State.follow, hreloaded]
    exact .copied _ i outcome installation stage effect hinstallation hstage hstep rfl rfl
  · cases h

theorem step_of_proceed {i : Nat} {failed : Bool}
    (h : Purchases.proceed s.purchases i failed = some purchases) :
    Step s (.purchases (.proceed i failed)) (s.follow purchases (.proceed i failed)) := by
  obtain ⟨installation, hinstallation, h⟩ := Option.bind_eq_some_iff.mp h
  obtain ⟨stage, hstage, h⟩ := Option.bind_eq_some_iff.mp h
  cases h
  exact .proceeded _ i failed installation stage hinstallation hstage rfl rfl

theorem step_of_deliver {i : Nat} (h : Purchases.deliver s.purchases i = some purchases) :
    Step s (.purchases (.deliver i)) (s.follow purchases (.deliver i)) := by
  obtain ⟨installation, hinstallation, h⟩ := Option.bind_eq_some_iff.mp h
  split at h
  · rename_i copied hstage
    split at h
    · cases h
      exact .delivered _ i installation copied hinstallation hstage (by simp) (by simp)
    · cases h
  · cases h

end

variable {fs : FileSystem} {bundleUrls localUrls urls : List URL} {s t : State} {action : Action}

/-- The session makes no other steps. -/
theorem step_of_next (h : (machine fs bundleUrls localUrls urls).next s action = some t) :
    Step s action t := by
  cases action with
  | append =>
      simp only [machine, append] at h
      split at h
      · cases h
      · rename_i block rest hmain
        split at h <;> cases h
        exact .appended block rest hmain
  | purchases action =>
      simp only [machine] at h
      split at h
      · rename_i hadmits
        obtain ⟨purchases, hnext, rfl⟩ := Option.map_eq_some_iff.mp h
        cases action with
        | «continue» => exact step_of_continue hnext
        | copy i outcome => exact step_of_copy hnext
        | proceed i failed => exact step_of_proceed hnext
        | deliver i => exact step_of_deliver hnext
        | launch => cases hadmits
        | setUserId | buyBot | loader | updatedTransactions =>
            obtain ⟨hfs, hinstallations⟩ : purchases.fs = s.purchases.fs ∧
                purchases.installations = s.purchases.installations := by
              cases Purchases.step_effect hnext <;> exact ⟨rfl, rfl⟩
            exact .quiet _ purchases hfs hinstallations
      · cases h

/-- A session is a run of the machine of purchases. -/
theorem purchases_reachable (h : (machine fs bundleUrls localUrls urls).Reachable s) :
    (Purchases.machine fs urls).Reachable s.purchases := by
  refine h.project State.purchases (fun _ => True) trivial
    fun state action following _ hnext => ⟨trivial, ?_⟩
  cases action with
  | append =>
      cases step_of_next hnext
      exact .inl rfl
  | purchases action =>
      simp only [machine] at hnext
      split at hnext
      · obtain ⟨purchases, hpurchases, rfl⟩ := Option.map_eq_some_iff.mp hnext
        have hsame : (state.follow purchases action).purchases = purchases := by
          unfold State.follow
          split
          · split <;> rfl
          all_goals rfl
        rw [hsame]
        exact .inr ⟨action, hpurchases⟩
      · cases hnext

end AiGramLib.Session
