import AiGramLib.Messages.Loop
import AiGramLib.Search.Machine
import AiGramLib.Session.Machine

/-!
# Purchases, messages and searches side by side

`ChatBotsManager` has one list of active bots: the main blocks of `copyBot` append to it, and the
loops of `handleMessages` and the operations of `search` read it, each on a queue of its own. Here
the machines of the three run side by side after a launch, in any order of their steps. Each of
them makes a run of its own, so what has been proved of them holds together (`session_reaches`,
`messages_reaches`, `search_reaches`).

All blocks of the three are on one main queue in the code, which is served in order; here they may
also overtake each other, except for those that `AiGramLib.Session` keeps in order. What the server
is asked and what it answers is left to `AiGramLib.Details`.
-/

namespace AiGramLib.App

open Transition

variable {Message Text : Type}

structure State (Message Text : Type) where
  /-- The store and its purchases, the files, and `bots`. -/
  session : Session.State
  messages : Messages.Loop.State Message
  search : Search.State Text

/-- The state after `ChatBotsManager.init`, with these switches stored. -/
def State.initial (fs : FileSystem) (bundleUrls localUrls : List URL)
    (enabledBots : ChatBotId → Option Bool) : State Message Text where
  session := .initial fs bundleUrls localUrls
  messages := .initial (Session.State.initial fs bundleUrls localUrls).bots enabledBots
  search := .initial (Session.State.initial fs bundleUrls localUrls).bots

inductive Action (Message Text : Type) where
  | session (action : Session.Action)
  | messages (action : Messages.Loop.Action Message)
  | search (action : Search.Action Text)

/-- `bots` is one variable: the others read what the session has written. -/
def State.follow (s : State Message Text) (session : Session.State) : State Message Text where
  session
  messages := { s.messages with bots := session.bots }
  search := { s.search with bots := session.bots }

variable [DecidableEq Message] [DecidableEq Text]

section

variable (process : ChatBot → List Message → ChatBotResult) (strings : StringOperations Text)
  (fs : FileSystem) (bundleUrls localUrls urls : List URL) (enabledBots : ChatBotId → Option Bool)

/-- The machine of `handleMessages`, with the bots and switches of the launch. -/
abbrev loop : Machine (Messages.Loop.State Message) (Messages.Loop.Action Message) :=
  Messages.Loop.machine process (Session.State.initial fs bundleUrls localUrls).bots enabledBots

/-- The machine of `search`, with the bots of the launch. -/
abbrev finder : Machine (Search.State Text) (Search.Action Text) :=
  Search.machine strings (Session.State.initial fs bundleUrls localUrls).bots

/-- All interleavings, from a launch on. -/
def machine : Machine (State Message Text) (Action Message Text) where
  start := .initial fs bundleUrls localUrls enabledBots
  next s
    | .session action =>
        ((Session.machine fs bundleUrls localUrls urls).next s.session action).map s.follow
    -- the session appends to `bots`, nothing else does
    | .messages (.append _) => none
    | .search (.append _) => none
    | .messages action =>
        ((loop process fs bundleUrls localUrls enabledBots).next s.messages action).map
          fun messages => { s with messages }
    | .search action =>
        ((finder strings fs bundleUrls localUrls).next s.search action).map
          fun search => { s with search }

/-- The steps from a state. -/
inductive Step (s : State Message Text) : Action Message Text → State Message Text → Prop where
  | session (action : Session.Action) (session : Session.State)
      (hnext : (Session.machine fs bundleUrls localUrls urls).next s.session action =
        some session) : Step s (.session action) (s.follow session)
  | messages (action : Messages.Loop.Action Message) (messages : Messages.Loop.State Message)
      (hnext : (loop process fs bundleUrls localUrls enabledBots).next s.messages action =
        some messages) (hbots : messages.bots = s.messages.bots) :
      Step s (.messages action) { s with messages }
  | search (action : Search.Action Text) (search : Search.State Text)
      (hnext : (finder strings fs bundleUrls localUrls).next s.search action = some search)
      (hbots : search.bots = s.search.bots) : Step s (.search action) { s with search }

end

/-- The three see the same list of bots. -/
structure Shares (s : State Message Text) : Prop where
  messages : s.messages.bots = s.session.bots
  search : s.search.bots = s.session.bots

omit [DecidableEq Message] [DecidableEq Text] in
/-- A step of a session leaves the list of bots alone, or appends a bot to it. -/
theorem session_bots {s t : Session.State} {action : Session.Action}
    (h : Session.Step s action t) :
    t.bots = s.bots ∨ ∃ newBot, t.bots = appendBot s.bots newBot := by
  cases h with
  | appended block rest hmain => exact .inr ⟨block.newBot, rfl⟩
  | _ => exact .inl rfl

omit [DecidableEq Message] in
/-- The loops of `handleMessages` only read the list of bots. -/
theorem messages_bots {process : ChatBot → List Message → ChatBotResult}
    {s t : Messages.Loop.State Message} {action : Messages.Loop.Action Message}
    (h : Messages.Loop.Step process s action t) (hreads : ∀ newBot, action ≠ .append newBot) :
    t.bots = s.bots := by
  cases h with
  | appended newBot => exact absurd rfl (hreads newBot)
  | _ => rfl

/-- So do the operations of `search`. -/
theorem search_bots {strings : StringOperations Text} {s t : Search.State Text}
    {action : Search.Action Text} (h : Search.Step strings s action t)
    (hreads : ∀ newBot, action ≠ .append newBot) : t.bots = s.bots := by
  cases h with
  | appended newBot => exact absurd rfl (hreads newBot)
  | searched text => by_cases hsame : s.lastSearchText = some text <;> simp [Search.search, hsame]
  | _ => rfl

variable {process : ChatBot → List Message → ChatBotResult} {strings : StringOperations Text}
  {fs : FileSystem} {bundleUrls localUrls urls : List URL}
  {enabledBots : ChatBotId → Option Bool} {s t : State Message Text}
  {action : Action Message Text}

/-- The machine makes no other steps. -/
theorem step_of_next
    (h : (machine process strings fs bundleUrls localUrls urls enabledBots).next s action =
      some t) : Step process strings fs bundleUrls localUrls urls enabledBots s action t := by
  cases action with
  | session action =>
      obtain ⟨session, hnext, rfl⟩ := Option.map_eq_some_iff.mp h
      exact .session action session hnext
  | messages action =>
      have hreads : ∀ newBot, action ≠ .append newBot := by
        rintro newBot rfl
        cases h
      obtain ⟨messages, hnext, rfl⟩ : ∃ messages,
          (loop process fs bundleUrls localUrls enabledBots).next s.messages action =
            some messages ∧ { s with messages } = t := by
        cases action with
        | append newBot => exact absurd rfl (hreads newBot)
        | _ => exact Option.map_eq_some_iff.mp h
      exact .messages action messages hnext
        (messages_bots (Messages.Loop.step_of_next hnext) hreads)
  | search action =>
      have hreads : ∀ newBot, action ≠ .append newBot := by
        rintro newBot rfl
        cases h
      obtain ⟨search, hnext, rfl⟩ : ∃ search,
          (finder strings fs bundleUrls localUrls).next s.search action = some search ∧
            { s with search } = t := by
        cases action with
        | append newBot => exact absurd rfl (hreads newBot)
        | _ => exact Option.map_eq_some_iff.mp h
      exact .search action search hnext (search_bots (Search.step_of_next hnext) hreads)

omit [DecidableEq Message] [DecidableEq Text] in
theorem Shares.initial :
    Shares (.initial fs bundleUrls localUrls enabledBots : State Message Text) :=
  ⟨rfl, rfl⟩

theorem Shares.step (h : Shares s)
    (hstep : Step process strings fs bundleUrls localUrls urls enabledBots s action t) :
    Shares t := by
  cases hstep with
  | session action session hnext => exact ⟨rfl, rfl⟩
  | messages action messages hnext hbots => exact ⟨hbots.trans h.messages, h.search⟩
  | search action search hnext hbots => exact ⟨h.messages, hbots.trans h.search⟩

theorem shares_of_reachable
    (h : (machine process strings fs bundleUrls localUrls urls enabledBots).Reachable s) :
    Shares s :=
  h.invariant (P := Shares) .initial fun _ _ _ hshares hnext => hshares.step (step_of_next hnext)

variable {ok : State Message Text → Action Message Text → Bool}

/-- The session makes a run of its own, under a condition that the steps of the whole meet. -/
theorem session_reaches {okSession : Session.State → Session.Action → Bool}
    (hok : ∀ (s : State Message Text) action, ok s (.session action) = true →
      okSession s.session action = true)
    (h : ((machine process strings fs bundleUrls localUrls urls enabledBots).restrict ok).Reaches
      s t) :
    ((Session.machine fs bundleUrls localUrls urls).restrict okSession).Reaches s.session
      t.session := by
  refine h.project State.session (fun _ => True) trivial
    fun state action following _ hnext => ⟨trivial, ?_⟩
  obtain ⟨hkeeps, hnext⟩ := Machine.restrict_next_eq_some.mp hnext
  cases step_of_next hnext with
  | session action session hown =>
      exact .inr ⟨action, Machine.restrict_next_eq_some.mpr ⟨hok state action hkeeps, hown⟩⟩
  | messages => exact .inl rfl
  | search => exact .inl rfl

/-- So does `handleMessages`, to which a block of the session that appends a bot is a step of its
own. -/
theorem messages_reaches
    {okMessages : Messages.Loop.State Message → Messages.Loop.Action Message → Bool}
    (hok : ∀ (s : State Message Text) action, ok s (.messages action) = true →
      okMessages s.messages action = true)
    (happends : ∀ messages newBot, okMessages messages (.append newBot) = true) (hs : Shares s)
    (h : ((machine process strings fs bundleUrls localUrls urls enabledBots).restrict ok).Reaches
      s t) :
    ((loop process fs bundleUrls localUrls enabledBots).restrict okMessages).Reaches s.messages
      t.messages := by
  refine h.project State.messages Shares hs fun state action following hshares hnext => ?_
  obtain ⟨hkeeps, hnext⟩ := Machine.restrict_next_eq_some.mp hnext
  have hstep := step_of_next hnext
  refine ⟨hshares.step hstep, ?_⟩
  cases hstep with
  | session action session hown =>
      rcases session_bots (Session.step_of_next hown) with hsame | ⟨newBot, happended⟩
      · refine .inl ?_
        simp only [State.follow, hsame, ← hshares.messages]
      · refine .inr ⟨.append newBot, Machine.restrict_next_eq_some.mpr ⟨happends _ newBot, ?_⟩⟩
        simp only [Messages.Loop.machine, State.follow, happended, hshares.messages]
  | messages action messages hown =>
      exact .inr ⟨action, Machine.restrict_next_eq_some.mpr ⟨hok state action hkeeps, hown⟩⟩
  | search => exact .inl rfl

/-- So does `search`. -/
theorem search_reaches (hs : Shares s)
    (h : (machine process strings fs bundleUrls localUrls urls enabledBots).Reaches s t) :
    (finder strings fs bundleUrls localUrls).Reaches s.search t.search := by
  refine h.project State.search Shares hs fun state action following hshares hnext => ?_
  have hstep := step_of_next hnext
  refine ⟨hshares.step hstep, ?_⟩
  cases hstep with
  | session action session hown =>
      rcases session_bots (Session.step_of_next hown) with hsame | ⟨newBot, happended⟩
      · refine .inl ?_
        simp only [State.follow, hsame, ← hshares.search]
      · refine .inr ⟨.append newBot, ?_⟩
        simp only [Search.machine, State.follow, happended, hshares.search]
  | messages => exact .inl rfl
  | search action search hown => exact .inr ⟨action, hown⟩

theorem messages_reachable
    (h : (machine process strings fs bundleUrls localUrls urls enabledBots).Reachable s) :
    (loop process fs bundleUrls localUrls enabledBots).Reachable s.messages := by
  have hfree : ((machine process strings fs bundleUrls localUrls urls enabledBots).restrict
      fun _ _ => true).Reachable s := h
  show ((loop process fs bundleUrls localUrls enabledBots).restrict
    fun _ _ => true).Reachable s.messages
  exact messages_reaches (fun _ _ _ => rfl) (fun _ _ => rfl) .initial hfree

theorem search_reachable
    (h : (machine process strings fs bundleUrls localUrls urls enabledBots).Reachable s) :
    (finder strings fs bundleUrls localUrls).Reachable s.search :=
  search_reaches .initial h

end AiGramLib.App
