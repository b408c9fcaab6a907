import AiGramLib.App.Machine
import AiGramLib.Messages.Present
import AiGramLib.Messages.Replies
import AiGramLib.Search.Present
import AiGramLib.Session.Active

/-!
# What has been bought is in use

A purchase ends with a call of its completion, and the user goes on to chat and to search.
`bought_bot_answers` says that both have the bot from then on: whatever else is bought, asked,
searched or switched at the same time, all later messages get its replies until it is switched off,
and all later searches find it. `names_answer_once` says that nobody gets it twice, whatever has
been installed before.
-/

namespace AiGramLib.App

open Transition

variable {Message Text : Type}

/-- A condition on the steps of the session. -/
def within (okSession : Session.State → Session.Action → Bool) (s : State Message Text) :
    Action Message Text → Bool
  | .session action => okSession s.session action
  | _ => true

/-- The bots of this name are not switched off. -/
def staysOn (name : ChatBotId) (s : State Message Text) : Action Message Text → Bool
  | .messages action => Messages.Loop.staysOn name s.messages action
  | _ => true

variable {Score : Type} [Zero Score] [One Score] [LE Score] [DecidableLE Score]
  [DecidableEq Message] [DecidableEq Text]
  {tagger : BotProcessor.LinguisticTagger} {threshold : Score}
  {interpreter : (bot : ChatBot) → List Score → Option (List.Vector Score bot.responses.length)}
  {text : Message → BotProcessor.Message} {process : ChatBot → List Message → ChatBotResult}
  {strings : StringOperations Text} {fs : FileSystem} {bundleUrls localUrls urls : List URL}
  {enabledBots : ChatBotId → Option Bool} {s : State Message Text}

/-- If the bot has replies to the messages, a result of it with just these replies is given. -/
def Replied (tagger : BotProcessor.LinguisticTagger) (threshold : Score)
    (interpreter : (bot : ChatBot) → List Score → Option (List.Vector Score bot.responses.length))
    (text : Message → BotProcessor.Message) (bot : ChatBot)
    (answer : Messages.Loop.Answer Message) : Prop :=
  let replies := Messages.replies tagger threshold interpreter text
    answer.block.request.messages bot
  replies ≠ [] → ∃ result ∈ answer.results, result.bot = bot ∧ result.responses.Perm replies

/-- When the completion of a purchase is about to be told `true`, there is an active bot of the
bought one's name. As long as it is switched on, its replies are among the results for all messages
from then on, and all searches from then on that accept it find it. -/
theorem bought_bot_answers
    (hprocess : Messages.IsProcessed tagger threshold interpreter text process)
    (hurls : ∀ url ∈ urls, url ∈ bundleUrls) (hbundle : ∀ url ∈ bundleUrls, url ∈ fs.bundleUrls)
    (h : ((machine process strings fs bundleUrls localUrls urls enabledBots).restrict
      (within Session.keepsNames)).Reachable s) {i : Nat} {installation : Purchases.Installation}
    (hinstallation : s.session.purchases.installations[i]? = some installation)
    (hstage : installation.stage = .reporting true)
    (hturn : s.session.admits (.deliver i) = true) :
    ∃ active ∈ s.session.bots, active.name = installation.bot.name ∧
      (isBotEnabled s.messages.enabledBots active = true → ∀ t,
        ((machine process strings fs bundleUrls localUrls urls enabledBots).restrict
          (staysOn active.name)).Reaches s t →
        ∀ answer ∈ t.messages.answers, s.messages.calls.length ≤ answer.block.request.call →
          Replied tagger threshold interpreter text active answer) ∧
      ∀ t, (machine process strings fs bundleUrls localUrls urls enabledBots).Reaches s t →
        ∀ answer ∈ t.search.answers, s.search.calls.length ≤ answer.block.request.call →
          active.isAcceptedWithText strings answer.block.request.text = true →
          active ∈ answer.block.result := by
  have hshares := shares_of_reachable h.of_restrict
  have hannounced := Session.announced_of_reachable hurls hbundle
    (session_reaches (fun _ _ hkeeps => hkeeps) h)
  obtain ⟨active, hactive, hname⟩ :=
    hannounced.exists_active hinstallation (by rw [hstage]; rfl) hturn
  refine ⟨active, hactive, hname, fun henabled t ht answer hanswer hmade hreplies => ?_,
    fun t ht answer hanswer hmade haccepted => ?_⟩
  · have hstays : ((loop process fs bundleUrls localUrls enabledBots).restrict
        (Messages.Loop.staysOn active.name)).Reaches s.messages t.messages :=
      messages_reaches (fun _ _ hstays => hstays) (fun _ _ => rfl) hshares ht
    obtain ⟨hbot, hperm⟩ := hprocess.responses_perm active answer.block.request.messages
    refine ⟨_, ?_, hbot, hperm⟩
    refine Messages.Loop.present_bot_answers (messages_reachable h.of_restrict)
      (hshares.messages ▸ hactive) henabled hstays hanswer hmade fun hempty => hreplies ?_
    rw [hempty] at hperm
    exact hperm.nil_eq.symm
  · exact Search.present_bot_found (search_reachable h.of_restrict) (hshares.search ▸ hactive)
      (search_reaches hshares ht) hanswer hmade haccepted

/-- A bundle with one bot that has something to say. -/
def talking : FileSystem :=
  { FileSystem.fresh [] with
    bundle := [⟨"a.chatbot", (Directory.named "a").insert "response_a.json"
      ⟨none, none, some [⟨["hello"], "greeting"⟩]⟩⟩].toAList }

/-- The app after its first launch, in which bots say all they can say. -/
def firstLaunch (fs : FileSystem) :
    Machine (State (List Char) String) (Action (List Char) String) :=
  machine Messages.sayAll .ascii fs [(ChatBot.named "a").url] [] [(ChatBot.named "a").url]
    fun _ => none

/-- The purchase is reported, and a message and a search follow. -/
def useOfA : List (Action (List Char) String) :=
  .session (.purchases (.deliver 0)) ::
    ([.handleMessages [['h', 'i']], .start, .turn, .work 0, .work 0, .work 0, .work 0, .finish,
      .runBlock] : List (Messages.Loop.Action (List Char))).map Action.messages ++
    ([.search "A", .start, .proceed, .proceed, .proceed, .runBlock] :
      List (Search.Action String)).map Action.search

/-- A bot is bought, says hello to the next message and is found by the next search. -/
theorem bought_bot_answers_run :
    ∃ (s t : State (List Char) String) (active : ChatBot),
      ((firstLaunch talking).restrict (within Session.keepsNames)).Reachable s ∧
      ((firstLaunch talking).restrict (staysOn active.name)).Reaches s t ∧
      t.messages.answers.length = 1 ∧ t.search.answers.length = 1 ∧
      (∀ answer ∈ t.messages.answers, ∃ result ∈ answer.results,
        result.bot = active ∧ result.responses = [⟨["hello"], "greeting"⟩]) ∧
      ∀ answer ∈ t.search.answers, active ∈ answer.block.result := by
  have hbundle : (ChatBot.named "a").url ∈ talking.bundleUrls := by decide
  obtain ⟨s, hs, ⟨hturn, hstages, hbots, hcalls, hsearches, hswitch⟩, hrun⟩ :=
    ((firstLaunch talking).restrict (within Session.keepsNames)).exists_reachable
      (Session.purchaseOfA.map Action.session)
      (fun s => (s.session.admits (.deliver 0) = true ∧
          (s.session.purchases.installations.map fun installation => installation.stage) =
            [.reporting true] ∧
          (s.session.bots.map fun bot => (bot.name, bot.title, bot.responses)) =
            [("a", "a", [⟨["hello"], "greeting"⟩])] ∧
          s.messages.calls = [] ∧ s.search.calls = [] ∧ s.messages.enabledBots "a" = none) ∧
        (((firstLaunch talking).restrict (staysOn "a")).run s useOfA).any fun t =>
          (t.messages.answers.map fun answer => answer.block.request.messages) = [[['h', 'i']]] ∧
            t.search.answers.map (fun answer => answer.block.request.text) = ["A"]) (by decide)
  obtain ⟨t, ht, hused⟩ := (Option.any_eq_true _ _).mp hrun
  obtain ⟨hmessages, htexts⟩ := of_decide_eq_true hused
  obtain ⟨installation, hinstallation, hstage⟩ := List.map_eq_singleton_iff.mp hstages
  obtain ⟨bot, hbot, hloaded⟩ := List.map_eq_singleton_iff.mp hbots
  obtain ⟨hname, htitle, hresponses⟩ : bot.name = "a" ∧ bot.title = "a" ∧
      bot.responses = [⟨["hello"], "greeting"⟩] := by simpa using hloaded
  obtain ⟨active, hactive, -, hreplied, hfound⟩ :=
    bought_bot_answers Messages.is_processed_sure (by simp) (by simpa using hbundle) hs
      (by rw [hinstallation]; rfl) hstage hturn
  obtain rfl : active = bot := List.mem_singleton.mp (hbot ▸ hactive)
  have hsteps : ((firstLaunch talking).restrict (staysOn active.name)).Reaches s t :=
    ⟨useOfA, by rw [hname]; exact ht⟩
  have henabled : isBotEnabled s.messages.enabledBots active = true := by
    simp [isBotEnabled, hname, hswitch]
  refine ⟨s, t, active, hs, hsteps, by simpa using congrArg List.length hmessages,
    by simpa using congrArg List.length htexts, fun answer hanswer => ?_,
    fun answer hanswer => ?_⟩
  · have hasked : answer.block.request.messages = [['h', 'i']] :=
      List.mem_singleton.mp (hmessages ▸ List.mem_map_of_mem hanswer)
    have hreplies : Messages.replies BotProcessor.spaceTagger 9 Messages.sure
        BotProcessor.Handshake.letters answer.block.request.messages active =
          [⟨["hello"], "greeting"⟩] := by
      rw [hasked, Messages.replies, List.flatMap_singleton, Messages.classify_sure, hresponses]
      rfl
    obtain ⟨result, hresult, hresultBot, hperm⟩ := hreplied henabled t hsteps answer hanswer
      (by simp [hcalls]) (by rw [hreplies]; exact List.cons_ne_nil _ _)
    rw [hreplies] at hperm
    exact ⟨result, hresult, hresultBot, List.perm_singleton.mp hperm⟩
  · have hsearched : answer.block.request.text = "A" :=
      List.mem_singleton.mp (htexts ▸ List.mem_map_of_mem hanswer)
    refine hfound t hsteps.of_restrict answer hanswer (by simp [hsearches]) ?_
    have hcontains : StringOperations.ascii.contains
        (StringOperations.ascii.lowercased (StringOperations.ascii.text "a"))
        (StringOperations.ascii.lowercased "A") = true := by decide
    simp [ChatBot.isAcceptedWithText, hsearched, htitle, hcontains]

/-- After a launch, whatever has been installed before it and is installed in the session, as long
as names are kept apart, no completion of a message or of a search is given one name twice. -/
theorem names_answer_once {before launched : Bots.State} {outcome : Outcome}
    {documentDirectory : Bool}
    (hprocess : Messages.IsProcessed tagger threshold interpreter text process)
    (hbefore : ((Bots.machine documentDirectory).restrict Bots.keepsApart).Reachable before)
    (hlaunch : Bots.launch before outcome bundleUrls localUrls = some launched)
    (hurls : ∀ url ∈ urls, url ∈ bundleUrls)
    (h : ((machine process strings launched.fs bundleUrls localUrls urls enabledBots).restrict
      (within Session.keepsApart)).Reachable s) :
    (∀ answer ∈ s.messages.answers, (answer.results.map fun result => result.bot.name).Nodup) ∧
    ∀ answer ∈ s.search.answers, (answer.block.result.map ChatBot.name).Nodup := by
  have hshares := shares_of_reachable h.of_restrict
  obtain ⟨active, hapart, htracked⟩ := Session.exists_apart hbefore hlaunch hurls
    (session_reaches (fun _ _ hkeeps => hkeeps) h)
  have hnames : (s.session.bots.map ChatBot.name).Nodup := htracked.bots ▸ hapart.bots
  constructor
  · intro answer hanswer
    exact Messages.Loop.answer_names_nodup (messages_reachable h.of_restrict)
      (fun bot messages => (hprocess.responses_perm bot messages).1) (hshares.messages ▸ hnames)
      hanswer
  · intro answer hanswer
    exact Search.found_names_nodup (search_reachable h.of_restrict) (hshares.search ▸ hnames)
      hanswer

/-- The purchased bot says hello once in the session after the first launch. -/
theorem names_answer_once_run :
    ∃ (before launched : Bots.State) (s : State (List Char) String),
      ((Bots.machine true).restrict Bots.keepsApart).Reachable before ∧
      Bots.launch before .ok [(ChatBot.named "a").url] [] = some launched ∧
      ((firstLaunch launched.fs).restrict (within Session.keepsApart)).Reachable s ∧
      (s.messages.answers.map fun answer => answer.results.length) = [1] ∧
      (s.search.answers.map fun answer => answer.block.result.length) = [1] ∧
      (∀ answer ∈ s.messages.answers, (answer.results.map fun result => result.bot.name).Nodup) ∧
      ∀ answer ∈ s.search.answers, (answer.block.result.map ChatBot.name).Nodup := by
  obtain ⟨before, hbefore, hrun⟩ :=
    ((Bots.machine true).restrict Bots.keepsApart).exists_reachable [.update talking.bundle]
      (fun before => (Bots.launch before .ok [(ChatBot.named "a").url] []).any fun launched =>
        (((firstLaunch launched.fs).restrict (within Session.keepsApart)).run
          (.initial launched.fs [(ChatBot.named "a").url] [] fun _ => none)
          (Session.purchaseOfA.map Action.session ++ useOfA)).any fun s =>
            (s.messages.answers.map fun answer => answer.results.length) = [1] ∧
              (s.search.answers.map fun answer => answer.block.result.length) = [1]) (by decide)
  obtain ⟨launched, hlaunch, hrun⟩ := (Option.any_eq_true _ _).mp hrun
  obtain ⟨s, hs, hused⟩ := (Option.any_eq_true _ _).mp hrun
  obtain ⟨hanswered, hfound⟩ := of_decide_eq_true hused
  have hreach : ((firstLaunch launched.fs).restrict (within Session.keepsApart)).Reachable s :=
    ⟨_, hs⟩
  exact ⟨before, launched, s, hbefore, hlaunch, hreach, hanswered, hfound,
    names_answer_once Messages.is_processed_sure hbefore hlaunch (by simp) hreach⟩

end AiGramLib.App
