import Mathlib.Data.Multiset.Basic
import AiGramLib.Messages.Results
import AiGramLib.Processor.Waited

/-!
# From messages to answers

`handleMessages` asks a `BotProcessor` for every enabled bot, and a `BotProcessor` runs an operation
with a handshake for every message. `completion_replies` goes through all of it: as long as the
handshakes go as they should (`IsProcessed`), whatever the schedules of the bots and the operations
are, a completion is given the bots that reply to some message, each with its replies to all of
them.

`text` gives the characters of a message; `handleMessages` itself only compares messages.
-/

namespace AiGramLib.Messages

open Transition BotProcessor

variable {Message Score : Type} [Zero Score] [One Score] [LE Score] [DecidableLE Score]

/-- The replies of a bot to some messages, one message after the other. -/
def replies (tagger : LinguisticTagger) (threshold : Score)
    (interpreter : (bot : ChatBot) → List Score → Option (List.Vector Score bot.responses.length))
    (text : Message → BotProcessor.Message) (messages : List Message) (bot : ChatBot) :
    List BotResponse :=
  messages.flatMap fun message =>
    classify threshold bot (interpreter bot) (words tagger (text message))

/-- The bots that reply to some of the messages, each with its replies to all of them. -/
def replying (tagger : LinguisticTagger) (threshold : Score)
    (interpreter : (bot : ChatBot) → List Score → Option (List.Vector Score bot.responses.length))
    (text : Message → BotProcessor.Message) (messages : List Message) (bots : List ChatBot) :
    List (ChatBot × Multiset BotResponse) :=
  (bots.filter fun bot => !(replies tagger threshold interpreter text messages bot).isEmpty).map
    fun bot => (bot, replies tagger threshold interpreter text messages bot)

/-- The bots of some results, each with its responses in whatever order. -/
def repliesIn (results : List ChatBotResult) : List (ChatBot × Multiset BotResponse) :=
  results.map fun result => (result.bot, result.responses)

/-- The results of `process` are those that `BotProcessor(bot:).process(messages:)` can return,
each under some schedule in which the handshakes go as they should. -/
def IsProcessed (tagger : LinguisticTagger) (threshold : Score)
    (interpreter : (bot : ChatBot) → List Score → Option (List.Vector Score bot.responses.length))
    (text : Message → BotProcessor.Message) (process : ChatBot → List Message → ChatBotResult) :
    Prop :=
  ∀ bot messages, ∃ t : Handshake.State Score,
    ((Handshake.machine tagger threshold bot (interpreter bot) (messages.map text)).restrict
      Handshake.awaited).Reachable t ∧
    Handshake.returned bot t = some (process bot messages)

variable {tagger : LinguisticTagger} {threshold : Score}
  {interpreter : (bot : ChatBot) → List Score → Option (List.Vector Score bot.responses.length)}
  {text : Message → BotProcessor.Message} {process : ChatBot → List Message → ChatBotResult}

/-- The messages one by one have the replies to all of them. -/
theorem flat_map_fin_range (messages : List Message) (bot : ChatBot) :
    ((List.finRange (messages.map text).length).flatMap fun i =>
      classify threshold bot (interpreter bot) (words tagger ((messages.map text).get i))) =
      replies tagger threshold interpreter text messages bot := by
  have hlisted := congrArg (List.flatMap fun message =>
    classify threshold bot (interpreter bot) (words tagger message))
    (List.map_get_finRange (messages.map text))
  rwa [List.flatMap_map, List.flatMap_map] at hlisted

/-- A bot gives its replies in some order. -/
theorem IsProcessed.responses_perm (h : IsProcessed tagger threshold interpreter text process)
    (bot : ChatBot) (messages : List Message) :
    (process bot messages).bot = bot ∧
      (process bot messages).responses.Perm
        (replies tagger threshold interpreter text messages bot) := by
  obtain ⟨t, ht, hreturned⟩ := h bot messages
  obtain ⟨-, hbot, order, horder, -, hresponses⟩ :=
    (Handshake.waited_of_reachable ht).result hreturned
  refine ⟨hbot, ?_⟩
  rw [hresponses, ← flat_map_fin_range]
  exact horder.flatMap_right _

/-- The results that are not empty are those of the bots with replies. -/
theorem IsProcessed.replies_in_appended
    (h : IsProcessed tagger threshold interpreter text process) (messages : List Message)
    (bots : List ChatBot) :
    repliesIn (appended process messages bots) =
      replying tagger threshold interpreter text messages bots := by
  induction bots with
  | nil => rfl
  | cons bot rest ih =>
      obtain ⟨hbot, hperm⟩ := h.responses_perm bot messages
      have hresponses : ((process bot messages).responses : Multiset BotResponse) =
          replies tagger threshold interpreter text messages bot := Multiset.coe_eq_coe.mpr hperm
      simp only [repliesIn, replying, appended] at ih ⊢
      rw [List.map_cons, List.filter_cons, List.filter_cons, hperm.isEmpty_eq]
      split
      · rw [List.map_cons, List.map_cons, ih, hbot, hresponses]
      · exact ih

/-- Permuted messages have the same replies, from permuted bots. -/
theorem replying_perm {messages other : List Message} {bots others : List ChatBot}
    (hmessages : messages.Perm other) (hbots : bots.Perm others) :
    (replying tagger threshold interpreter text messages bots).Perm
      (replying tagger threshold interpreter text other others) := by
  have hreplies : ∀ bot, (replies tagger threshold interpreter text messages bot).Perm
      (replies tagger threshold interpreter text other bot) := fun bot =>
    hmessages.flatMap_right _
  simp only [replying, (hreplies _).isEmpty_eq, Multiset.coe_eq_coe.mpr (hreplies _)]
  exact (hbots.filter _).map _

variable [DecidableEq Message] {s : State Message}

/-- A completion is given the replies of the bots that were asked. -/
theorem IsProcessed.given (h : IsProcessed tagger threshold interpreter text process)
    (hs : (machine process).Reachable s) {answer : Answer Message} (hanswer : answer ∈ s.answers) :
    (repliesIn answer.results).Perm (replying tagger threshold interpreter text
      answer.block.request.messages answer.block.enabledBots) := by
  obtain ⟨hgathered, hresults⟩ := (collected_of_reachable hs).answers answer hanswer
  rw [← h.replies_in_appended, hresults]
  refine ((results_with_assistant_handling_perm _).map _).trans ?_
  rw [hgathered.results]
  exact (appended_perm hgathered.order _).map _

/-- If the handshakes go as they should, a completion is given the enabled bots that reply to some
message, each once for each time it is among the bots, with exactly its replies to all messages.
Neither the order of the messages nor a schedule matters: two requests with the same messages and
the same enabled bots are given the same replies. -/
theorem completion_replies (hprocess : IsProcessed tagger threshold interpreter text process)
    (h : (machine process).Reachable s) {answer : Answer Message} (hanswer : answer ∈ s.answers) :
    (repliesIn answer.results).Perm (replying tagger threshold interpreter text
      answer.block.request.messages answer.block.enabledBots) ∧
    ∀ (same : ChatBot → List Message → ChatBotResult) (t : State Message),
      IsProcessed tagger threshold interpreter text same → (machine same).Reachable t →
      ∀ other ∈ t.answers,
        other.block.request.messages.Perm answer.block.request.messages →
        other.block.enabledBots.Perm answer.block.enabledBots →
        (repliesIn other.results).Perm (repliesIn answer.results) := by
  have hanswered := hprocess.given h hanswer
  refine ⟨hanswered, fun same t hsame ht other hother hmessages hbots => ?_⟩
  exact (hsame.given ht hother).trans ((replying_perm hmessages hbots).trans hanswered.symm)

/-- A model that knows all answers, to whatever it is asked. -/
def sure (bot : ChatBot) (_ : List Nat) : Option (List.Vector Nat bot.responses.length) :=
  some (List.Vector.replicate bot.responses.length 9)

/-- What a bot with such a model says. -/
def sayAll (bot : ChatBot) (messages : List (List Char)) : ChatBotResult :=
  ⟨bot, messages.flatMap fun _ => bot.responses.flatMap InterpreterOperation.constructResponses⟩

theorem classify_sure (bot : ChatBot) (words : List String) :
    classify 9 bot (sure bot) words =
      bot.responses.flatMap InterpreterOperation.constructResponses := by
  have hlisted := congrArg (List.flatMap InterpreterOperation.constructResponses)
    (List.map_get_finRange bot.responses)
  rw [List.flatMap_map] at hlisted
  simpa [classify, sure, List.Vector.get_replicate, InterpreterOperation.constructResponses] using
    hlisted

/-- All schedules of such a bot give the same. -/
theorem is_processed_sure : IsProcessed spaceTagger 9 sure Handshake.letters sayAll := by
  intro bot messages
  obtain ⟨t, ht, hreturned⟩ := (Handshake.settles spaceTagger 9 bot (sure bot)
    (messages.map Handshake.letters)).exists_rest Handshake.waited_start
  rw [Machine.restrict_true] at ht
  refine ⟨t, ht, ?_⟩
  obtain ⟨result, hresult⟩ := Option.isSome_iff_exists.mp hreturned
  obtain ⟨-, hbot, order, horder, -, hresponses⟩ :=
    (Handshake.waited_of_reachable ht).result hresult
  have hlength : order.length = messages.length := by simp [horder.length_eq]
  have hsame : ∀ {α : Type} (items : List α) (said : List BotResponse),
      (items.flatMap fun _ => said) = (List.replicate items.length said).flatten := by
    simp [List.flatMap_def]
  simp only [classify_sure, hsame, hlength] at hresponses
  rw [hresult, sayAll, hsame, ← hresponses, ← hbot]

/-- Two messages to two bots, of which one is switched off. -/
theorem completion_replies_run :
    ∃ (s : State (List Char)) (answer : Answer (List Char)), (machine sayAll).Reachable s ∧
      answer ∈ s.answers ∧ answer.results.map (fun result => result.responses.length) = [6] ∧
      (repliesIn answer.results).Perm (replying spaceTagger 9 sure Handshake.letters
        answer.block.request.messages answer.block.enabledBots) := by
  obtain ⟨s, hs, hlengths⟩ := (machine sayAll).exists_reachable
    [.handleMessages [['b', 'y', 'e'], []],
      .start [greeter, .named "snow"] fun name => if name = "snow" then some false else none,
      .work 0, .work 0, .work 0, .work 0, .finish, .runBlock]
    (fun s => s.answers.map (fun answer => answer.results.map
      fun result => result.responses.length) = [[6]]) (by decide)
  obtain ⟨answer, hanswers, hlength⟩ := List.map_eq_singleton_iff.mp hlengths
  have hmem : answer ∈ s.answers := hanswers ▸ List.mem_cons_self
  exact ⟨s, answer, hs, hmem, hlength, (completion_replies is_processed_sure hs hmem).1⟩

end AiGramLib.Messages
