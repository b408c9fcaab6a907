import AiGramLib.Bots.Machine

/-!
# What the running app uses after a `copyBot`

A call replaces the directory of an installed bot, loads the new bot from it and dispatches a
main block that appends it to `bots`. Bots are compared by name there, so a bot of that name that
is in the list already stays, with the words and responses of the directory that is gone, while
its model file is the new one. `copied_bot_in_use_iff` says that the list agrees with the disk
exactly if the bot was not in it or was in it once with the same data (`UpToDate`).
-/

namespace AiGramLib

/-- Two bots with the same info, words and responses. -/
def ChatBot.SameData (bot other : ChatBot) : Prop :=
  bot.info = other.info ∧ bot.words = other.words ∧ bot.responses = other.responses

instance (bot other : ChatBot) : Decidable (bot.SameData other) :=
  inferInstanceAs (Decidable (_ ∧ _))

theorem ChatBot.SameData.symm {bot other : ChatBot} (h : bot.SameData other) :
    other.SameData bot :=
  ⟨h.1.symm, h.2.1.symm, h.2.2.symm⟩

theorem ChatBot.SameData.trans {bot other third : ChatBot} (h : bot.SameData other)
    (h' : other.SameData third) : bot.SameData third :=
  ⟨h.1.trans h'.1, h.2.1.trans h'.2.1, h.2.2.trans h'.2.2⟩

theorem ChatBot.SameData.name {bot other : ChatBot} (h : bot.SameData other) :
    bot.name = other.name :=
  congrArg ChatBotInfo.name h.1

namespace Bots

open Transition

/-- Whether a bot of the list has this name. -/
def hasName (name : ChatBotId) (bot : ChatBot) : Bool := bot.name == name

/-- The active bots agree with the disk on a bot that has been copied: there is exactly one of
its name, which has the data of the directory, and the others are as before. -/
structure InUse (before : List ChatBot) (bot : ChatBot) (s : State) : Prop where
  one : s.bots.countP (hasName bot.name) = 1
  current : ∀ other ∈ s.bots, other.name = bot.name →
    ∃ onDisk ∈ ChatBot.init s.fs bot.destinationUrl, other.SameData onDisk
  others : (s.bots.filter fun other => !hasName bot.name other) =
    before.filter fun other => !hasName bot.name other

/-- The list has at most one bot of this name, with the data of this bot. -/
structure UpToDate (bots : List ChatBot) (bot : ChatBot) : Prop where
  one : bots.countP (hasName bot.name) ≤ 1
  current : ∀ other ∈ bots, other.name = bot.name → other.SameData bot

/-- Only the call at this position makes steps, and no main block runs. -/
def onlyCall (n : Nat) (_ : State) : Action → Bool
  | .step i _ => i == n
  | _ => false

/-- A call that was made in the state `before` and has come to this stage while nothing else has
happened. -/
structure Underway (bot : ChatBot) (before s : State) (stage : CopyStage) : Prop where
  bots : s.bots = before.bots
  call : s.calls[before.calls.length]? = some ⟨bot, stage⟩
  held : Held s.fs bot
  ready : stage.Ready bot s.fs
  reload : stage = .reload → bot.url ≠ bot.destinationUrl ∧
    s.fs.directory bot.destinationUrl = s.fs.directory bot.url
  returned : stage = .returned true → ∃ newBot, s.main = before.main ++ [newBot] ∧
    ChatBot.init s.fs bot.destinationUrl = some newBot ∧ newBot.SameData bot
  main : stage ≠ .returned true → s.main = before.main

variable {documentDirectory : Bool} {before s t : State} {bot : ChatBot} {stage : CopyStage}

/-- What is loaded from a copy that has just been made has the data of the bot. -/
theorem same_data_of_copied {fs : FileSystem} {newBot : ChatBot} (hheld : Held fs bot)
    (hne : bot.url ≠ bot.destinationUrl)
    (hdirectory : fs.directory bot.destinationUrl = fs.directory bot.url)
    (hinit : ChatBot.init fs bot.destinationUrl = some newBot) : newBot.SameData bot := by
  have hname := ChatBot.installed_name_eq hheld.1 (by rw [hheld.2.1]; decide)
  have hloaded := ChatBot.init_of_directory hname hdirectory
    (hheld.2.2 (hheld.bundle_of_ne hne))
  cases hinit.symm.trans hloaded
  exact ⟨rfl, rfl, rfl⟩

/-- The call is made. -/
theorem underway_of_call
    (hcall : (machine documentDirectory).next before (.copyBot bot) = some s) :
    Underway bot before s .guards := by
  simp only [machine, copyBot, Option.ite_none_right_eq_some, Option.some.injEq] at hcall
  obtain ⟨⟨-, hheld⟩, rfl⟩ := hcall
  exact ⟨rfl, by simp, hheld, trivial, by simp, by simp, fun _ => rfl⟩

/-- An operation of the call takes it to its next stage. -/
theorem Underway.step (h : Underway bot before s stage) (hfree : bot.isFree = false)
    {outcome : Outcome} (hnext : Bots.step s before.calls.length outcome = some t) :
    ∃ following, Underway bot before t following := by
  obtain ⟨call, hcall, hnext⟩ := Option.bind_eq_some_iff.mp hnext
  obtain ⟨effect, heffect, hnext⟩ := Option.bind_eq_some_iff.mp hnext
  cases hnext
  cases h.call.symm.trans hcall
  have hlt := (List.getElem?_eq_some_iff.mp hcall).1
  have hnotReturned : stage ≠ .returned true := by
    rintro rfl
    cases heffect
  refine ⟨effect.stage, h.bots, by simp [hlt], h.held.congr_bundle (copy_step_bundle heffect),
    h.ready.step heffect, copy_step_copied heffect h.ready, ?_, ?_⟩
  · intro hreturned
    rcases copy_step_new_bot heffect hfree with ⟨hnot, -⟩ | ⟨-, hstage, hfs, newBot, hinit, hnew⟩
    · exact absurd hreturned hnot
    · obtain ⟨hne, hdirectory⟩ := h.reload hstage
      refine ⟨newBot, by simp [h.main hnotReturned, hnew], by rw [hfs]; exact hinit, ?_⟩
      exact same_data_of_copied h.held hne hdirectory hinit
  · intro hnot
    rcases copy_step_new_bot heffect hfree with ⟨-, hnone⟩ | ⟨hreturned, -⟩
    · simp [h.main hnotReturned, hnone]
    · exact absurd hreturned hnot

/-- However the operations of the call end, it is underway. -/
theorem underway_of_reaches (h : ∃ stage, Underway bot before s stage) (hfree : bot.isFree = false)
    (hsteps : ((machine documentDirectory).restrict (onlyCall before.calls.length)).Reaches s t) :
    ∃ stage, Underway bot before t stage := by
  refine hsteps.restrict_induction (P := fun state => ∃ stage, Underway bot before state stage) h
    fun state action following _ hunderway honly hnext => ?_
  obtain ⟨stage, hunderway⟩ := hunderway
  cases action with
  | step i outcome =>
      obtain rfl : i = before.calls.length := by simpa [onlyCall] using honly
      exact hunderway.step hfree hnext
  | update => cases honly
  | launch => cases honly
  | copyBot => cases honly
  | runBlock => cases honly

/-- In a list without a bot of that name the block appends the new one. -/
theorem in_use_of_new {newBot : ChatBot} {bots : List ChatBot}
    (hinit : ChatBot.init t.fs bot.destinationUrl = some newBot) (hdata : newBot.SameData bot)
    (hnone : ∀ other ∈ bots, other.name ≠ bot.name) (hbots : t.bots = bots ++ [newBot]) :
    InUse bots bot t where
  one := by
    have hcount : bots.countP (hasName bot.name) = 0 :=
      List.countP_eq_zero.mpr fun other hother => by simpa [hasName] using hnone other hother
    simp [hbots, List.countP_append, hcount, hasName, hdata.name]
  current := by
    intro other hother hname
    rw [hbots] at hother
    rcases List.mem_append.mp hother with hold | hnew
    · exact absurd hname (hnone other hold)
    · rw [List.mem_singleton.mp hnew]
      exact ⟨newBot, hinit, rfl, rfl, rfl⟩
  others := by simp [hbots, hasName, hdata.name]

/-- A list with a bot of that name stays as it is. -/
theorem in_use_iff_of_old {newBot : ChatBot} {bots : List ChatBot}
    (hinit : ChatBot.init t.fs bot.destinationUrl = some newBot) (hdata : newBot.SameData bot)
    (hsome : ∃ other ∈ bots, other.name = bot.name) (hbots : t.bots = bots) :
    InUse bots bot t ↔ UpToDate bots bot := by
  constructor
  · intro h
    refine ⟨hbots ▸ Nat.le_of_eq h.one, fun other hother hname => ?_⟩
    obtain ⟨onDisk, honDisk, hsame⟩ := h.current other (hbots ▸ hother) hname
    cases hinit.symm.trans honDisk
    exact hsame.trans hdata
  · intro h
    have hpos : 0 < bots.countP (hasName bot.name) := by
      obtain ⟨other, hother, hname⟩ := hsome
      exact List.countP_pos_iff.mpr ⟨other, hother, by simp [hasName, hname]⟩
    refine ⟨by rw [hbots]; exact Nat.le_antisymm h.one hpos, ?_, by rw [hbots]⟩
    intro other hother hname
    rw [hbots] at hother
    exact ⟨newBot, hinit, (h.current other hother hname).trans hdata.symm⟩

/-- The main block of the call leaves the list in agreement with the disk, if and only if it was
up to date before. -/
theorem in_use_append_iff {newBot : ChatBot} {bots : List ChatBot}
    (hinit : ChatBot.init t.fs bot.destinationUrl = some newBot) (hdata : newBot.SameData bot)
    (hbots : t.bots = appendBot bots newBot) : InUse bots bot t ↔ UpToDate bots bot := by
  have hany : (bots.any fun other => other == newBot) = true ↔
      ∃ other ∈ bots, other.name = bot.name := by
    simp only [List.any_eq_true, ChatBot.beq_iff_name, hdata.name]
  unfold appendBot at hbots
  split at hbots
  · rename_i hold
    exact in_use_iff_of_old hinit hdata (hany.mp hold) hbots
  · rename_i hnew
    have hnone : ∀ other ∈ bots, other.name ≠ bot.name := fun other hother hname =>
      hnew (hany.mpr ⟨other, hother, hname⟩)
    refine ⟨fun _ => ⟨?_, fun other hother hname => absurd hname (hnone other hother)⟩,
      fun _ => in_use_of_new hinit hdata hnone hbots⟩
    rw [List.countP_eq_zero.mpr fun other hother => by simpa [hasName] using hnone other hother]
    exact Nat.zero_le 1

/-- The main blocks that are queued append their bots one after the other. -/
theorem run_blocks (documentDirectory : Bool) (s : State) (blocks rest : List ChatBot)
    (hmain : s.main = blocks ++ rest) :
    (machine documentDirectory).run s (List.replicate blocks.length .runBlock) =
      some { s with bots := blocks.foldl appendBot s.bots, main := rest } := by
  induction blocks generalizing s with
  | nil =>
      obtain rfl : s.main = rest := hmain
      rfl
  | cons newBot blocks ih =>
      have hnext : (machine documentDirectory).next s .runBlock =
          some { s with bots := appendBot s.bots newBot, main := blocks ++ rest } := by
        simp [machine, runBlock, hmain]
      rw [List.length_cons, List.replicate_succ, Machine.run, hnext]
      exact ih { s with bots := appendBot s.bots newBot, main := blocks ++ rest } rfl

/-- The active bots once the main blocks that are queued have run. -/
def State.settled (s : State) : List ChatBot := s.main.foldl appendBot s.bots

/-- Once the main block of a call that has returned `true` has run, with nothing else in between
but the blocks that were queued before it, the active bots agree with the disk, if and only if
they were up to date before it. -/
theorem copied_bot_in_use_iff {called copied : State} (hfree : bot.isFree = false)
    (hcall : (machine documentDirectory).next before (.copyBot bot) = some called)
    (hsteps : ((machine documentDirectory).restrict (onlyCall before.calls.length)).Reaches
      called copied)
    (hreturned : copied.calls[before.calls.length]? = some ⟨bot, .returned true⟩)
    (hblocks : (machine documentDirectory).run copied
      (List.replicate (before.main.length + 1) .runBlock) = some t) :
    InUse before.settled bot t ↔ UpToDate before.settled bot := by
  obtain ⟨stage, hunderway⟩ := underway_of_reaches ⟨_, underway_of_call hcall⟩ hfree hsteps
  cases hunderway.call.symm.trans hreturned
  obtain ⟨newBot, hnew, hinit, hdata⟩ := hunderway.returned rfl
  have hrun := run_blocks documentDirectory copied (before.main ++ [newBot]) []
    (by rw [hnew, List.append_nil])
  rw [List.length_append, List.length_singleton, hblocks, List.foldl_append] at hrun
  cases hrun
  refine in_use_append_iff hinit hdata ?_
  rw [State.settled, ← hunderway.bots]
  rfl

/-- An installed bot, which the list has as it is in the bundle, is copied again. -/
theorem copied_bot_in_use_run :
    ∃ before t : State, (machine true).Reachable before ∧
      before.settled.map ChatBot.name = ["a"] ∧ InUse before.settled (.named "a") t ∧
      t.bots.map ChatBot.name = ["a"] := by
  let installed : List Action :=
    [.update (FileSystem.fresh ["a"]).bundle, .launch .ok [] [], .copyBot (.named "a"),
      .step 0 .ok, .step 0 .ok, .step 0 .ok, .step 0 .ok, .step 0 .ok, .runBlock]
  let before := ((machine true).run (machine true).start installed).get (by decide)
  let called := ((machine true).next before (.copyBot (.named "a"))).get (by decide)
  let steps : List Action := List.replicate 6 (.step 1 .ok)
  let copied :=
    (((machine true).restrict (onlyCall before.calls.length)).run called steps).get (by decide)
  let blocks : List Action := List.replicate (before.main.length + 1) .runBlock
  let t := ((machine true).run copied blocks).get (by decide)
  have hcall : (machine true).next before (.copyBot (.named "a")) = some called :=
    (Option.some_get _).symm
  have hsteps : ((machine true).restrict (onlyCall before.calls.length)).Reaches called copied :=
    ⟨steps, (Option.some_get _).symm⟩
  have hblocks : (machine true).run copied blocks = some t := (Option.some_get _).symm
  have hupToDate : UpToDate before.settled (.named "a") := ⟨by decide, by decide⟩
  refine ⟨before, t, ⟨installed, (Option.some_get _).symm⟩, by decide, ?_, by decide⟩
  exact (copied_bot_in_use_iff (by decide) hcall hsteps (by decide) hblocks).mpr hupToDate

/-- The bot that the next version of the app has in place of another one, with one more word. -/
def updatedBot : ChatBot := { ChatBot.named "a" with words := ["b"] }

/-- A bot is installed, and the next version of the app has it with other words. After the update
it is installed again: the directory has the new words, the list still has the old bot. -/
theorem copied_bot_not_in_use :
    ∃ before called copied t : State, (machine true).Reachable before ∧ before.main = [] ∧
      updatedBot.isFree = false ∧
      (machine true).next before (.copyBot updatedBot) = some called ∧
      ((machine true).restrict (onlyCall before.calls.length)).Reaches called copied ∧
      copied.calls[before.calls.length]? = some ⟨updatedBot, .returned true⟩ ∧
      (machine true).next copied .runBlock = some t ∧ ¬ InUse before.bots updatedBot t := by
  let actions : List Action :=
    [.update (FileSystem.fresh ["a"]).bundle, .launch .ok [] [], .copyBot (.named "a"),
      .step 0 .ok, .step 0 .ok, .step 0 .ok, .step 0 .ok, .step 0 .ok, .runBlock,
      .update [⟨"a.chatbot", (Directory.named "a").insert "words_a.json"
        ⟨none, some ["b"], none⟩⟩].toAList,
      .launch .ok [] [⟨.chatbots, "a.chatbot"⟩]]
  let before := ((machine true).run (machine true).start actions).get (by decide)
  let called := ((machine true).next before (.copyBot updatedBot)).get (by decide)
  let steps : List Action := List.replicate 6 (.step 0 .ok)
  let copied :=
    (((machine true).restrict (onlyCall before.calls.length)).run called steps).get (by decide)
  let t := ((machine true).next copied .runBlock).get (by decide)
  refine ⟨before, called, copied, t, ⟨actions, (Option.some_get _).symm⟩, by decide, by decide,
    (Option.some_get _).symm, ⟨steps, (Option.some_get _).symm⟩, by decide,
    (Option.some_get _).symm, fun hinUse => ?_⟩
  have hcurrent : ∀ other ∈ t.bots, ∃ onDisk ∈ ChatBot.init t.fs updatedBot.destinationUrl,
      other.words = onDisk.words := by
    intro other hother
    have hname : other.name = updatedBot.name := by
      revert other
      decide
    obtain ⟨onDisk, honDisk, -, hwords, -⟩ := hinUse.current other hother hname
    exact ⟨onDisk, honDisk, hwords⟩
  exact absurd hcurrent (by decide)

end Bots

end AiGramLib
