/-!
# Bots, their responses and their results

The value types of `Entities.swift`. Icons and previews are left out: no function of the
library reads them. A `URL` is one of the two places bots are read from, the `bots`
subdirectory of the bundle or the `chatbots` folder of the user's documents, with the name
of the bot's directory in it.
-/

namespace AiGramLib

/-- One answer of a bot: its texts and the tag of the class it belongs to. -/
structure BotResponse where
  response : List String
  tag : String
  deriving DecidableEq, Repr

/-- The name of the bot that answers as the user himself. -/
def TargetBotName : String := "target"

inductive ChatBotType where
  | bot
  deriving DecidableEq, Repr

inductive ChatBotTag where
  | paid | free | men | women | unisex | films | cartoon | known | collections | great
  deriving DecidableEq, Repr

/-- The texts that `String(describing:)` gives for the tags. -/
def ChatBotTag.description : ChatBotTag → String
  | .paid => "платные"
  | .free => "бесплатные"
  | .men => "мужские"
  | .women => "женские"
  | .unisex => "женские/мужские"
  | .films => "персонажи фильмов"
  | .cartoon => "персонажи мультфильмов"
  | .known => "известные"
  | .collections => "коллекции"
  | .great => "великие"

/-- No two tags are described by the same text. -/
theorem ChatBotTag.description_injective {tag other : ChatBotTag}
    (h : tag.description = other.description) : tag = other := by
  cases tag <;> cases other <;> first | rfl | exact absurd h (by decide)

/-- The name of a bot. As everywhere, a `String` stands for a Swift string up to `==`, which is
canonical equivalence. -/
abbrev ChatBotId := String

/-- The contents of a bot's `info.json`. -/
structure ChatBotInfo where
  title : String
  name : ChatBotId
  shortDescription : String
  type : ChatBotType
  tags : List ChatBotTag
  next : Option ChatBotId
  price : Option Int
  addDate : String
  updateDate : String
  developer : String
  deriving DecidableEq, Repr

/-- The two directories whose entries are bot directories. -/
inductive Folder where
  | bundleBots
  | chatbots
  deriving DecidableEq, Repr

/-- The address of a bot directory. -/
structure URL where
  folder : Folder
  lastPathComponent : String
  deriving DecidableEq, Repr

/-- The characters before and after the last period of a name. A name without a period, with
its only period in front or with nothing after the last one has no extension. -/
def splitExtension (name : String) : String × String :=
  let reversed := name.toList.reverse
  let ext := (reversed.takeWhile (· ≠ '.')).reverse
  let stem := ((reversed.dropWhile (· ≠ '.')).drop 1).reverse
  if ext.isEmpty || stem.isEmpty then (name, "") else (String.ofList stem, String.ofList ext)

/-- Characters with a period among them are those before the first one, the period and the
rest. -/
theorem take_drop_period {chars : List Char} (h : (chars.dropWhile (· ≠ '.')).drop 1 ≠ []) :
    chars.takeWhile (· ≠ '.') ++ '.' :: (chars.dropWhile (· ≠ '.')).drop 1 = chars := by
  induction chars with
  | nil => simp at h
  | cons char rest ih =>
      by_cases hperiod : char = '.'
      · simp [hperiod]
      · simp only [ne_eq, hperiod, not_false_eq_true, decide_true, List.dropWhile_cons_of_pos] at h
        simpa [hperiod] using ih (by simpa using h)

/-- A name with an extension is put together again from its two parts. -/
theorem split_extension_join {name : String} (h : (splitExtension name).2 ≠ "") :
    (splitExtension name).1 ++ "." ++ (splitExtension name).2 = name := by
  simp only [splitExtension] at h ⊢
  split at h
  · exact absurd rfl h
  · rename_i hparts
    rw [if_neg hparts]
    obtain ⟨-, hstem⟩ := not_or.mp (by simpa only [Bool.or_eq_true] using hparts)
    have hjoin := @take_drop_period name.toList.reverse (by simpa using hstem)
    have hname := congrArg List.reverse hjoin
    apply String.toList_injective
    simpa using hname

/-- `url.pathExtension`. -/
def URL.pathExtension (url : URL) : String :=
  (splitExtension url.lastPathComponent).2

/-- `url.deletingPathExtension()`. -/
def URL.deletingPathExtension (url : URL) : URL :=
  { url with lastPathComponent := (splitExtension url.lastPathComponent).1 }

/-- A loaded bot. -/
structure ChatBot where
  info : ChatBotInfo
  url : URL
  fileNameComponents : String × String
  index : Int
  words : List String
  responses : List BotResponse
  deriving DecidableEq, Repr

namespace ChatBot

def botExtension : String := "chatbot"

def name (bot : ChatBot) : ChatBotId := bot.info.name

def title (bot : ChatBot) : String := bot.info.title

def shortDescription (bot : ChatBot) : String := bot.info.shortDescription

def fullDescription (bot : ChatBot) : String := bot.shortDescription

def isTarget (bot : ChatBot) : Bool := bot.name == TargetBotName

def tags (bot : ChatBot) : List String := bot.info.tags.map ChatBotTag.description

def nextBotId (bot : ChatBot) : Option ChatBotId := bot.info.next

/-- The test `tags.contains(String(describing: ChatBotTag.free))` of the install code. -/
def isFree (bot : ChatBot) : Bool := bot.tags.contains ChatBotTag.free.description

/-- The last path component that `copyBot` and `isLocal` build for a bot's installed copy. -/
def installedName (bot : ChatBot) : String :=
  bot.fileNameComponents.1 ++ "." ++ bot.fileNameComponents.2

/-- The address of a bot's installed copy, `destinationUrl` in the source. -/
def destinationUrl (bot : ChatBot) : URL := ⟨.chatbots, bot.installedName⟩

/-- Bots are compared by name alone. -/
instance : BEq ChatBot := ⟨fun lhs rhs => lhs.name == rhs.name⟩

theorem beq_iff_name {bot other : ChatBot} : (bot == other) = true ↔ bot.name = other.name := by
  show (bot.name == other.name) = true ↔ _
  exact beq_iff_eq

/-- They are ordered by index. -/
instance : LT ChatBot := ⟨fun lhs rhs => lhs.index < rhs.index⟩

instance (bot other : ChatBot) : Decidable (bot < other) :=
  inferInstanceAs (Decidable (bot.index < other.index))

theorem lt_iff_index {bot other : ChatBot} : bot < other ↔ bot.index < other.index := Iff.rfl

/-- Comparing descriptions finds exactly the bots tagged `free`. -/
theorem is_free_iff {bot : ChatBot} : bot.isFree = true ↔ ChatBotTag.free ∈ bot.info.tags := by
  simp only [isFree, tags, List.contains_iff_mem, List.mem_map]
  constructor
  · rintro ⟨tag, hmem, hdescription⟩
    exact ChatBotTag.description_injective hdescription ▸ hmem
  · intro hmem
    exact ⟨_, hmem, rfl⟩

/-- The paid bot of the bundle with this name and directory name, without words or responses. -/
def named (name : ChatBotId) : ChatBot where
  info := {
    title := name, name, shortDescription := "", type := .bot, tags := [.paid], next := none
    price := none, addDate := "", updateDate := "", developer := "" }
  url := ⟨.bundleBots, name ++ "." ++ botExtension⟩
  fileNameComponents := (name, botExtension)
  index := 0
  words := []
  responses := []

end ChatBot

/-- The answers one bot gave to a request. -/
structure ChatBotResult where
  bot : ChatBot
  responses : List BotResponse
  deriving DecidableEq, Repr

end AiGramLib
