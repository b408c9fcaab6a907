import Mathlib.Data.Finset.SDiff
import Mathlib.Data.Finset.Insert
import Mathlib.Data.List.AList
import AiGramLib.Entities

/-!
# The list of bots in the store

The part of `botsInStore` that runs in its load block: it loads the bots of the bundle, looks
for one that no other bot names as its next, and follows the `next` links from there. Which
head `Set.first` gives is an argument of `storeBots`. The loop has no bound of its own, so
`walk` takes the number of loop tests it may make and is `none` if they do not suffice.
-/

namespace AiGramLib

/-- `tempBots` and `linkedNames`. -/
structure LoadedLinks where
  tempBots : AList fun _ : ChatBotId => ChatBot
  linkedNames : Finset ChatBotId

/-- One turn of the loop over the URLs, on what `ChatBot(url:)` gave: an error is caught, and
the target bot is skipped. -/
def LoadedLinks.add (links : LoadedLinks) (load : Option ChatBot) : LoadedLinks :=
  match load with
  | none => links
  | some bot =>
      if bot.isTarget then links
      else
        -- a bot with the name of an earlier one takes its place
        { tempBots := links.tempBots.insert bot.name bot
          linkedNames :=
            match bot.nextBotId with
            | some nextName => insert nextName links.linkedNames
            | none => links.linkedNames }

/-- The loop over the URLs of the bundle. -/
def loadLinks (loads : List (Option ChatBot)) : LoadedLinks :=
  loads.foldl LoadedLinks.add ⟨∅, ∅⟩

/-- `Set(tempBots.keys).subtracting(linkedNames)` -/
def LoadedLinks.heads (links : LoadedLinks) : Finset ChatBotId :=
  links.tempBots.keys.toFinset \ links.linkedNames

/-- Whether `Set.first` may give this on a set: any element, and `nil` only on the empty set. -/
def isFirst (names : Finset ChatBotId) : Option ChatBotId → Bool
  | some name => name ∈ names
  | none => names = ∅

/-- The loop that follows `nextBotId`, with a bound on the number of loop tests. -/
def walk (tempBots : AList fun _ : ChatBotId => ChatBot) :
    Nat → Option ChatBotId → Int → List ChatBot → Option (List ChatBot)
  | 0, _, _, _ => none
  | _ + 1, none, _, result => some result
  | fuel + 1, some currentName, index, result =>
      match tempBots.lookup currentName with
      | some bot => walk tempBots fuel bot.nextBotId (index + 1) (result ++ [{ bot with index }])
      | none => some result

/-- The list that the load block builds when `first` gives `name`. -/
def storeBots (loads : List (Option ChatBot)) (name : Option ChatBotId) (fuel : Nat) :
    Option (List ChatBot) :=
  if isFirst (loadLinks loads).heads name then walk (loadLinks loads).tempBots fuel name 1 []
  else none

end AiGramLib
