import AiGramLib.Details.Effect
import AiGramLib.Details.FirstStart
import AiGramLib.Messages.Machine

/-!
# What the app shows of its bots

The details of a bot are looked up in the table of the last stored refresh, and its switch in
`UserDefaults`. `details_shown` says where the details come from: at any time, all of them from one
and the same answer of the server, or from none. `enabled_as_switched` says that nothing but
`enableBot` changes what `isBotEnabled` finds, on a device that goes through any number of launches.
-/

namespace AiGramLib.Details

open Transition

/-- `botDetails(_:)` -/
def botDetails (s : State) (bot : ChatBot) : ChatBotBackDetails :=
  match s.botsDetailsFromBack.lookup bot.name with
  | some temp => temp
  | none =>
      { name := bot.name, installation := "0", deletion := "0", theme := "0", phrase := "0",
        price := "0", rating := "0", votings := "0" }

/-- The last one of the details that have the name of the bot, or those of a bot that the server
knows nothing of. -/
def shownOf (details : List ChatBotBackDetails) (bot : ChatBot) : ChatBotBackDetails :=
  (details.filter fun detail => detail.name == bot.name).getLast?.getD
    { name := bot.name, installation := "0", deletion := "0", theme := "0", phrase := "0",
      price := "0", rating := "0", votings := "0" }

/-- The table that a refresh makes of the details in an answer. -/
def tableOf (details : List ChatBotBackDetails) : Table :=
  details.foldl (fun result detail => result.insert detail.name detail) ∅

/-- A later detail of a name takes the place of an earlier one. -/
theorem lookup_table_of (details : List ChatBotBackDetails) (name : ChatBotId) :
    (tableOf details).lookup name =
      (details.filter fun detail => detail.name == name).getLast? := by
  induction details using List.reverseRecOn with
  | nil => rfl
  | append_singleton details detail ih =>
      have hlast : tableOf (details ++ [detail]) = (tableOf details).insert detail.name detail := by
        simp [tableOf]
      rw [hlast, List.filter_append]
      by_cases hname : detail.name = name
      · subst hname
        simp
      · rw [AList.lookup_insert_ne (Ne.symm hname), ih]
        simp [hname]

/-- What is shown while a table is stored is what the details it was made of say. -/
theorem bot_details_table_of {s : State} {details : List ChatBotBackDetails}
    (h : s.botsDetailsFromBack = tableOf details) (bot : ChatBot) :
    botDetails s bot = shownOf details bot := by
  rw [botDetails, h, lookup_table_of, shownOf]
  cases (details.filter fun detail => detail.name == bot.name).getLast? <;> rfl

variable {enabledBots : AList fun _ : ChatBotId => Bool} {wasStartedBefore : Bool} {s t : State}
  {actions : List Action} {action : Action}

/-- In this run the server has answered a request for the details with these, without an error. -/
def Served (enabledBots : AList fun _ : ChatBotId => Bool) (wasStartedBefore : Bool)
    (actions : List Action) (details : List ChatBotBackDetails) : Prop :=
  ∃ before after i payload task refresh state,
    actions = before ++ .respond i (some payload) none :: after ∧
    (machine enabledBots wasStartedBefore).run (.initial enabledBots wasStartedBefore) before =
      some state ∧
    state.tasks[i]? = some task ∧ task.handler = .details refresh ∧
    payload.asDetails = some details

/-- The table is empty, or made of the details that the server has answered with. -/
def FromServer (enabledBots : AList fun _ : ChatBotId => Bool) (wasStartedBefore : Bool)
    (actions : List Action) (table : Table) : Prop :=
  ∃ details, (details = [] ∨ Served enabledBots wasStartedBefore actions details) ∧
    table = tableOf details

/-- So is the table that a main block will store. -/
def Block.FromServer (enabledBots : AList fun _ : ChatBotId => Bool) (wasStartedBefore : Bool)
    (actions : List Action) : Block → Prop
  | .received _ outcome =>
      ∀ table ∈ outcome, Details.FromServer enabledBots wasStartedBefore actions table
  | .store _ outcome result =>
      Details.FromServer enabledBots wasStartedBefore actions result ∧
        ∀ table ∈ outcome, result = table
  | .voteFailed _ _ | .enablingFailed _ | .rated _ _ => True

/-- The server has answered with these details, or there are none and the last refresh that was
stored, if any, has brought nothing. -/
def Shows (enabledBots : AList fun _ : ChatBotId => Bool) (wasStartedBefore : Bool)
    (actions : List Action) (s : State) (details : List ChatBotBackDetails) : Prop :=
  Served enabledBots wasStartedBefore actions details ∨
    details = [] ∧ ∀ application ∈ s.applied.getLast?, application.outcome.getD ∅ = ∅

theorem Served.append (action : Action) {details : List ChatBotBackDetails}
    (h : Served enabledBots wasStartedBefore actions details) :
    Served enabledBots wasStartedBefore (actions ++ [action]) details := by
  obtain ⟨before, after, i, payload, task, refresh, state, rfl, hanswered⟩ := h
  exact ⟨before, after ++ [action], i, payload, task, refresh, state, by simp, hanswered⟩

theorem FromServer.append (action : Action) {table : Table}
    (h : FromServer enabledBots wasStartedBefore actions table) :
    FromServer enabledBots wasStartedBefore (actions ++ [action]) table := by
  obtain ⟨details, hserved, htable⟩ := h
  exact ⟨details, hserved.imp_right (Served.append action), htable⟩

theorem Block.FromServer.append (action : Action) {block : Block}
    (h : block.FromServer enabledBots wasStartedBefore actions) :
    block.FromServer enabledBots wasStartedBefore (actions ++ [action]) := by
  cases block with
  | received refresh outcome => exact fun table htable => (h table htable).append action
  | store refresh outcome result => exact ⟨Details.FromServer.append action h.1, h.2⟩
  | voteFailed | enablingFailed | rated => trivial

/-- The stored table, and those that main blocks will store, come from the server. -/
structure Sourced (enabledBots : AList fun _ : ChatBotId => Bool) (wasStartedBefore : Bool)
    (actions : List Action) (s : State) : Prop where
  table : ∃ details, Shows enabledBots wasStartedBefore actions s details ∧
    s.botsDetailsFromBack = tableOf details
  main : ∀ block ∈ s.main, block.FromServer enabledBots wasStartedBefore actions

/-- A step that stores nothing shows the same. -/
theorem Shows.append (action : Action) (happlied : t.applied = s.applied)
    {details : List ChatBotBackDetails}
    (h : Shows enabledBots wasStartedBefore actions s details) :
    Shows enabledBots wasStartedBefore (actions ++ [action]) t details := by
  rw [Shows, happlied]
  exact h.imp_left (Served.append action)

/-- What comes from the server and is what its refresh has brought, if that has succeeded, can be
stored. -/
theorem FromServer.store {outcome : Option Table} {result : Table}
    (h : FromServer enabledBots wasStartedBefore actions result)
    (houtcome : ∀ table ∈ outcome, result = table) (refresh : Refresh) :
    ∃ details,
      Shows enabledBots wasStartedBefore actions (store s refresh outcome result) details ∧
      result = tableOf details := by
  obtain ⟨details, rfl | hserved, rfl⟩ := h
  · refine ⟨[], .inr ⟨rfl, fun application happlication => ?_⟩, rfl⟩
    simp only [Details.store, List.getLast?_concat, Option.mem_some_iff] at happlication
    subst happlication
    cases outcome with
    | none => rfl
    | some table => exact (houtcome table rfl).symm
  · exact ⟨details, .inl hserved, rfl⟩

/-- The block that an answer of the server leads to. -/
theorem from_server_handler {i : Nat} {data : Option Payload} {error : Option String}
    {task : DataTask} {block : Block}
    (hrun : (machine enabledBots wasStartedBefore).run (.initial enabledBots wasStartedBefore)
      actions = some s)
    (htask : s.tasks[i]? = some task) (hblock : block ∈ task.handler.block? data error) :
    block.FromServer enabledBots wasStartedBefore (actions ++ [.respond i data error]) := by
  cases hhandler : task.handler with
  | firstStart =>
      rw [hhandler] at hblock
      cases hblock
  | vote | enabling | voting =>
      rw [hhandler] at hblock
      cases error <;> simp only [Handler.block?, Option.map_some, Option.map_none,
        Option.isNone_some, Option.isNone_none, Bool.false_eq_true, if_true, if_false] at hblock <;>
        cases hblock <;> trivial
  | details refresh =>
      rw [hhandler] at hblock
      cases hblock
      intro table htable
      cases data with
      | none =>
          simp only [decodeDetails] at htable
          split at htable <;> cases htable
          exact ⟨[], .inl rfl, rfl⟩
      | some payload =>
          cases hdetails : payload.asDetails with
          | none => simp [decodeDetails, hdetails] at htable
          | some details =>
              cases error with
              | some error => simp [decodeDetails, hdetails] at htable
              | none =>
                  simp only [decodeDetails, hdetails] at htable
                  cases htable
                  exact ⟨details, .inr ⟨actions, [], i, payload, task, refresh, s, rfl, hrun, htask,
                    hhandler, hdetails⟩, rfl⟩

/-- A main block stores what comes from the server, and passes it on. -/
theorem Sourced.runMain {block : Block} {rest : List Block}
    (h : Sourced enabledBots wasStartedBefore actions { s with main := rest })
    (hblock : block.FromServer enabledBots wasStartedBefore actions) :
    Sourced enabledBots wasStartedBefore actions (runMain { s with main := rest } block) := by
  cases block with
  | received refresh outcome =>
      have hresult : FromServer enabledBots wasStartedBefore actions
          (outcome.getD s.botsDetailsFromBack) := by
        cases outcome with
        | none =>
            obtain ⟨details, hshows, htable⟩ := h.table
            exact ⟨details, hshows.symm.imp_left And.left, htable⟩
        | some table => exact hblock table rfl
      have houtcome : ∀ table ∈ outcome, outcome.getD s.botsDetailsFromBack = table := by
        rintro table rfl
        rfl
      obtain ⟨number, caller⟩ := refresh
      cases caller with
      | start => exact ⟨hresult.store houtcome _, h.main⟩
      | _ =>
          refine ⟨h.table, fun later hlater => ?_⟩
          rcases List.mem_append.mp hlater with hold | hnew
          · exact h.main later hold
          · rw [List.mem_singleton.mp hnew]
            exact ⟨hresult, houtcome⟩
  | store refresh outcome result =>
      obtain ⟨number, caller⟩ := refresh
      cases caller <;> exact ⟨hblock.1.store hblock.2 _, h.main⟩
  | voteFailed | enablingFailed | rated => exact ⟨h.table, h.main⟩

theorem Sourced.step (h : Sourced enabledBots wasStartedBefore actions s)
    (hrun : (machine enabledBots wasStartedBefore).run (.initial enabledBots wasStartedBefore)
      actions = some s)
    (hnext : (machine enabledBots wasStartedBefore).next s action = some t) :
    Sourced enabledBots wasStartedBefore (actions ++ [action]) t := by
  have hmain : ∀ block ∈ s.main, block.FromServer enabledBots wasStartedBefore
      (actions ++ [action]) := fun block hblock => (h.main block hblock).append action
  obtain ⟨details, hshows, hdetails⟩ := h.table
  have hstep := step_of_next hnext
  cases hstep with
  | startedBefore | firstStart | rateBot | enableBot | isBotRatedBy =>
      exact ⟨⟨details, hshows.append _ rfl, hdetails⟩, hmain⟩
  | responded i data error task htask =>
      obtain ⟨htable, happlied, -⟩ :=
        handle_frame { s with tasks := s.tasks.eraseIdx i } task.handler data error
      refine ⟨⟨details, hshows.append _ happlied, htable.trans hdetails⟩, fun block hblock => ?_⟩
      rw [handle_main] at hblock
      rcases List.mem_append.mp hblock with hold | hnew
      · exact hmain block hold
      · exact from_server_handler hrun htask (by simpa using hnew)
  | ran block rest hrest =>
      rw [hrest] at hmain
      have hleft : ∀ later ∈ rest, later.FromServer enabledBots wasStartedBefore _ :=
        fun later hlater => hmain later (List.mem_cons_of_mem _ hlater)
      exact Sourced.runMain ⟨⟨details, hshows.append _ rfl, hdetails⟩, hleft⟩
        (hmain block List.mem_cons_self)

/-- At any time of any run, the details of all bots that are shown are those of one answer of the
server to a request for them, the last one of each name. They are those of none only before a
refresh is stored, and if the last one that was stored has brought nothing: it has failed, or has
brought an empty table. Each bot is shown with its own details. -/
theorem details_shown
    (h : (machine enabledBots wasStartedBefore).run (.initial enabledBots wasStartedBefore)
      actions = some s) :
    ∃ details,
      (Served enabledBots wasStartedBefore actions details ∨
        details = [] ∧ ∀ application ∈ s.applied.getLast?, application.outcome.getD ∅ = ∅) ∧
      ∀ bot, botDetails s bot = shownOf details bot ∧ (botDetails s bot).name = bot.name := by
  have hsourced : Sourced enabledBots wasStartedBefore actions s := by
    refine Machine.run_induction (P := Sourced enabledBots wasStartedBefore) h ?_
      fun actions action state following hrun hstate hnext => hstate.step hrun hnext
    refine ⟨⟨[], .inr ⟨rfl, fun application happlication => ?_⟩, rfl⟩, fun block hblock => ?_⟩
    · cases happlication
    · cases hblock
  obtain ⟨details, hshows, htable⟩ := hsourced.table
  refine ⟨details, hshows, fun bot => ?_⟩
  have hshown := bot_details_table_of htable bot
  refine ⟨hshown, ?_⟩
  rw [hshown, shownOf]
  cases hlast : (details.filter fun detail => detail.name == bot.name).getLast? with
  | none => rfl
  | some detail =>
      have hmem := List.mem_of_getLast? hlast
      simpa using (List.mem_filter.mp hmem).2

/-- The refresh of the start, answered with two details of one bot. -/
theorem details_shown_run :
    ∃ (actions : List Action) (s : State),
      (machine ∅ true).run (.initial ∅ true) actions = some s ∧
      (botDetails s (.named "snow")).rating = "5" ∧ (botDetails s (.named "tsoy")).rating = "0" ∧
      ∃ details, (Served ∅ true actions details ∨
          details = [] ∧ ∀ application ∈ s.applied.getLast?, application.outcome.getD ∅ = ∅) ∧
        ∀ bot, botDetails s bot = shownOf details bot ∧ (botDetails s bot).name = bot.name := by
  let rated (rating : String) : ChatBotBackDetails :=
    ⟨"snow", "1", "0", "0", "0", "0", rating, "1"⟩
  let actions : List Action :=
    [.respond 0 (some ⟨some [rated "4", rated "5"], none⟩) none, .runBlock]
  obtain ⟨s, hs, hsnow, htsoy⟩ : ∃ s, (machine ∅ true).run (.initial ∅ true) actions = some s ∧
      (botDetails s (.named "snow")).rating = "5" ∧
      (botDetails s (.named "tsoy")).rating = "0" := ⟨_, rfl, by decide, by decide⟩
  exact ⟨actions, s, hs, hsnow, htsoy, details_shown hs⟩

/-- What `enableBot` was called with last for a bot of this name. -/
def lastSwitch (name : ChatBotId) (actions : List DeviceAction) : Option Bool :=
  (actions.filterMap fun
    | .app (.enableBot bot enabled _) => if bot.name = name then some enabled else none
    | _ => none).getLast?

theorem handle_enabled_bots (s : State) (handler : Handler) (data : Option Payload)
    (error : Option String) : (handle s handler data error).enabledBots = s.enabledBots := by
  cases handler with
  | firstStart | vote | enabling => cases error <;> rfl
  | voting | details => rfl

theorem run_main_enabled_bots (s : State) (block : Block) :
    (runMain s block).enabledBots = s.enabledBots := by
  cases block with
  | received refresh outcome =>
      obtain ⟨number, caller⟩ := refresh
      cases caller <;> rfl
  | store refresh outcome =>
      obtain ⟨number, caller⟩ := refresh
      cases caller <;> rfl
  | voteFailed | enablingFailed | rated => rfl

/-- Only `enableBot` changes a switch. -/
theorem Step.lookup_enabled (h : Step s action t) (name : ChatBotId) :
    t.enabledBots.lookup name =
      (lastSwitch name [.app action]).or (s.enabledBots.lookup name) := by
  cases h with
  | startedBefore | firstStart | rateBot | isBotRatedBy => rfl
  | enableBot bot enabled userId =>
      show (s.enabledBots.insert bot.name enabled).lookup name = _
      by_cases hname : bot.name = name
      · subst hname
        simp [lastSwitch]
      · rw [AList.lookup_insert_ne (Ne.symm hname)]
        simp [lastSwitch, hname]
  | responded i data error task htask =>
      rw [handle_enabled_bots]
      rfl
  | ran block rest hmain =>
      rw [run_main_enabled_bots]
      rfl

/-- On a device, after any number of launches and whatever the server answers, a bot is enabled as
it was switched last, and if it never was, as it was stored at first, or else enabled. -/
theorem enabled_as_switched {actions : List DeviceAction} {d : Device}
    (h : (device enabledBots wasStartedBefore).run (device enabledBots wasStartedBefore).start
      actions = some d) (bot : ChatBot) :
    isBotEnabled (fun name => d.app.enabledBots.lookup name) bot =
      ((lastSwitch bot.name actions).or (enabledBots.lookup bot.name)).getD true := by
  refine congrArg (Option.getD · true) ?_
  refine Machine.run_induction (P := fun actions (d : Device) => d.app.enabledBots.lookup bot.name =
    (lastSwitch bot.name actions).or (enabledBots.lookup bot.name)) h rfl ?_
  intro actions action state following _ hstate hnext
  have happend : lastSwitch bot.name (actions ++ [action]) =
      (lastSwitch bot.name [action]).or (lastSwitch bot.name actions) := by
    simp [lastSwitch, List.filterMap_append, List.getLast?_append]
  rw [happend, Option.or_assoc, ← hstate]
  cases action with
  | app action =>
      obtain ⟨app, happ, hnext⟩ := Option.bind_eq_some_iff.mp hnext
      cases hnext
      exact (step_of_next happ).lookup_enabled bot.name
  | relaunch =>
      cases hnext
      rfl

/-- A bot that is switched off and another one that is switched on, before a new launch. -/
theorem enabled_as_switched_run :
    ∃ d : Device, (device ∅ true).run (device ∅ true).start
        [.app (.enableBot (.named "snow") false 1), .app (.enableBot (.named "tsoy") true 1),
          .relaunch] = some d ∧
      isBotEnabled (fun name => d.app.enabledBots.lookup name) (.named "snow") = false ∧
      isBotEnabled (fun name => d.app.enabledBots.lookup name) (.named "snow") =
        ((lastSwitch "snow" [.app (.enableBot (.named "snow") false 1),
          .app (.enableBot (.named "tsoy") true 1), .relaunch]).or
          ((∅ : AList fun _ : ChatBotId => Bool).lookup "snow")).getD true := by
  obtain ⟨d, hd, hoff⟩ : ∃ d, (device ∅ true).run (device ∅ true).start
      [.app (.enableBot (.named "snow") false 1), .app (.enableBot (.named "tsoy") true 1),
        .relaunch] = some d ∧
      isBotEnabled (fun name => d.app.enabledBots.lookup name) (.named "snow") = false :=
    ⟨_, rfl, by decide⟩
  exact ⟨d, hd, hoff, enabled_as_switched hd (.named "snow")⟩

end AiGramLib.Details
