import Mathlib.Data.List.Perm.Subperm
import AiGramLib.Bots.Folders
import AiGramLib.CopyBot
import AiGramLib.Library.Machine

/-!
# The list of active bots over the life of an installation

`ChatBotsManager.bots` is filled at launch with the free bots of the bundle and the bots whose
copies are in the user's documents, and `copyBot` appends to it while the app runs. The
`chatbots` folder outlives the app and its updates. The state machine takes launches, updates,
and any number of calls of `copyBot` with their file operations interleaved.
-/

namespace AiGramLib

namespace Bots

open Transition

/-- A call of `copyBot`. -/
structure Call where
  bot : ChatBot
  stage : CopyStage
  deriving DecidableEq

structure State where
  fs : FileSystem
  running : Bool
  bots : List ChatBot
  calls : List Call
  /-- The main blocks that `copyBot` has dispatched, with the bots to append. -/
  main : List ChatBot

/-- A device on which the app has never been installed. -/
def State.initial (documentDirectory : Bool) : State where
  fs := { bundle := ∅, documentDirectory, chatbots := none }
  running := false
  bots := []
  calls := []
  main := []

inductive Action where
  /-- The app is installed or updated to this bundle. -/
  | update (bundle : Entries)
  /-- The app starts; the URLs are those whose directories can be read this time, in the order
  in which they are listed. -/
  | launch (outcome : Outcome) (bundleUrls localUrls : List URL)
  | copyBot (bot : ChatBot)
  /-- The next file operation of a call. -/
  | step (i : Nat) (outcome : Outcome)
  | runBlock

/-- The bots of a bundle have different names. -/
def DistinctNames (fs : FileSystem) : Prop :=
  ∀ url ∈ fs.bundleUrls, ∀ place ∈ fs.bundleUrls, ∀ bot ∈ ChatBot.init fs url,
    ∀ other ∈ ChatBot.init fs place, bot.name = other.name → url = place

instance (fs : FileSystem) : Decidable (DistinctNames fs) :=
  inferInstanceAs (Decidable (∀ url ∈ fs.bundleUrls, ∀ place ∈ fs.bundleUrls,
    ∀ bot ∈ ChatBot.init fs url, ∀ other ∈ ChatBot.init fs place,
      bot.name = other.name → url = place))

/-- The end of the app and of everything that was running in it. -/
def stop (s : State) : State :=
  { s with running := false, bots := [], calls := [], main := [] }

/-- An update of the app, to a bundle whose bots have different names. -/
def update (s : State) (bundle : Entries) : Option State :=
  let fs := { s.fs with bundle }
  if DistinctNames fs then some { stop s with fs } else none

/-- `ChatBotsManager.init`, as far as it concerns `bots`. -/
def launch (s : State) (outcome : Outcome) (bundleUrls localUrls : List URL) : Option State :=
  let fs := s.fs.createChatbots outcome
  if bundleUrls.Subperm s.fs.bundleUrls ∧ localUrls.Subperm fs.contentsOfDirectory then
    some { stop s with
      fs
      running := true
      bots := freeBots s.fs bundleUrls ++ localBots fs localUrls }
  else none

/-- A bot that code can hold while this bundle is installed: it has been loaded from one of the
two folders, and a directory of the bundle still holds what was loaded from it. -/
def Held (fs : FileSystem) (bot : ChatBot) : Prop :=
  bot.fileNameComponents = (bot.url.deletingPathExtension.lastPathComponent,
    bot.url.pathExtension) ∧
  bot.url.pathExtension = ChatBot.botExtension ∧
  (bot.url.folder = .bundleBots → ChatBot.init fs bot.url = some { bot with index := 0 })

instance (fs : FileSystem) (bot : ChatBot) : Decidable (Held fs bot) :=
  inferInstanceAs (Decidable (_ ∧ _))

/-- What can be held depends on the bundle only. -/
theorem Held.congr_bundle {fs other : FileSystem} {bot : ChatBot} (h : Held fs bot)
    (hbundle : other.bundle = fs.bundle) : Held other bot :=
  ⟨h.1, h.2.1, fun hfolder => (init_bundle_congr hbundle hfolder).trans (h.2.2 hfolder)⟩

/-- A bot that is held is one of the bundle, or has been loaded from its own copy. -/
theorem Held.bundle_of_ne {fs : FileSystem} {bot : ChatBot} (h : Held fs bot)
    (hne : bot.url ≠ bot.destinationUrl) : bot.url.folder = .bundleBots := by
  obtain ⟨hcomponents, hext, -⟩ := h
  have hname := ChatBot.installed_name_eq hcomponents (by rw [hext]; decide)
  cases hurl : bot.url with
  | mk folder component =>
      cases folder with
      | bundleBots => rfl
      | chatbots =>
          rw [hurl] at hname
          exact absurd (by rw [hurl, ChatBot.destinationUrl, hname]) hne

/-- A call of `copyBot`. -/
def copyBot (s : State) (bot : ChatBot) : Option State :=
  if s.running = true ∧ Held s.fs bot then
    some { s with calls := s.calls ++ [⟨bot, .guards⟩] }
  else none

/-- One file operation of a call. -/
def step (s : State) (i : Nat) (outcome : Outcome) : Option State := do
  let call ← s.calls[i]?
  let effect ← copyStep call.bot s.fs call.stage outcome
  pure { s with
    fs := effect.fs
    calls := s.calls.set i { call with stage := effect.stage }
    main := s.main ++ effect.newBot.toList }

/-- The next main block of `copyBot`. -/
def runBlock (s : State) : Option State :=
  match s.main with
  | [] => none
  | newBot :: rest => some { s with bots := appendBot s.bots newBot, main := rest }

/-- All interleavings, from a new device on. -/
def machine (documentDirectory : Bool) : Machine State Action where
  start := .initial documentDirectory
  next s
    | .update bundle => update s bundle
    | .launch outcome bundleUrls localUrls => launch s outcome bundleUrls localUrls
    | .copyBot bot => copyBot s bot
    | .step i outcome => step s i outcome
    | .runBlock => runBlock s

end Bots

end AiGramLib
