import AiGramLib.FileSystem

/-!
# Bots that are loaded from disk

`ChatBot.init` loads a bot from its directory, and `ChatBot.isLocal` asks whether a loaded bot
is installed. Whether it is depends on its tags and on one entry of one folder only
(`ChatBot.is_local_congr`), so two bots with that entry in common are installed together
(`ChatBot.sharesCopy`).
-/

namespace AiGramLib

/-- `ChatBot(url:)`: decode the four files of a bot directory, or throw. -/
def ChatBot.init (fs : FileSystem) (url : URL) : Option ChatBot := do
  let dir ← fs.directory url
  let fileNameComponents := (url.deletingPathExtension.lastPathComponent, url.pathExtension)
  let info ← (dir.lookup "info.json").bind File.asInfo
  let _ ← dir.lookup "converted_model.tflite"
  let words ← (dir.lookup ("words_" ++ fileNameComponents.1 ++ ".json")).bind File.asWords
  let responses ←
    (dir.lookup ("response_" ++ fileNameComponents.1 ++ ".json")).bind File.asResponses
  pure { info, url, fileNameComponents, index := 0, words, responses }

/-- The directory that `ChatBot.named name` is loaded from. -/
def Directory.named (name : ChatBotId) : Directory :=
  [⟨"info.json", ⟨some (ChatBot.named name).info, none, none⟩⟩,
    ⟨"converted_model.tflite", ⟨none, none, none⟩⟩,
    ⟨"words_" ++ name ++ ".json", ⟨none, some [], none⟩⟩,
    ⟨"response_" ++ name ++ ".json", ⟨none, none, some []⟩⟩].toAList

/-- A freshly installed app with these paid bots in its bundle. -/
def FileSystem.fresh (names : List ChatBotId) : FileSystem where
  bundle :=
    (names.map fun name => ⟨name ++ "." ++ ChatBot.botExtension, Directory.named name⟩).toAList
  documentDirectory := true
  chatbots := none

/-- Only a directory that exists can be loaded as a bot. -/
theorem ChatBot.directory_of_init {fs : FileSystem} {url : URL} {bot : ChatBot}
    (h : ChatBot.init fs url = some bot) : (fs.directory url).isSome = true := by
  cases hdir : fs.directory url with
  | none => simp [ChatBot.init, hdir] at h
  | some dir => rfl

/-- A loaded bot knows the address it was loaded from. -/
theorem ChatBot.located_of_init {fs : FileSystem} {url : URL} {bot : ChatBot}
    (h : ChatBot.init fs url = some bot) :
    bot.url = url ∧ bot.index = 0 ∧
      bot.fileNameComponents =
        (url.deletingPathExtension.lastPathComponent, url.pathExtension) := by
  simp only [ChatBot.init, Option.bind_eq_bind, Option.bind_eq_some_iff] at h
  obtain ⟨_, _, _, _, _, _, _, _, _, _, hbot⟩ := h
  cases hbot
  exact ⟨rfl, rfl, rfl⟩

/-- Loading reads one directory only. -/
theorem ChatBot.init_congr {fs other : FileSystem} {url : URL}
    (h : other.directory url = fs.directory url) :
    ChatBot.init other url = ChatBot.init fs url := by
  simp only [ChatBot.init, h]

/-- A directory gives the same bot wherever it lies under the same name. -/
theorem ChatBot.init_of_directory {fs other : FileSystem} {url place : URL} {bot : ChatBot}
    (hname : place.lastPathComponent = url.lastPathComponent)
    (hdirectory : other.directory place = fs.directory url)
    (h : ChatBot.init fs url = some bot) :
    ChatBot.init other place = some { bot with url := place } := by
  obtain ⟨folder, name⟩ := place
  obtain rfl : name = url.lastPathComponent := hname
  simp only [ChatBot.init, Option.bind_eq_bind, Option.bind_eq_some_iff] at h ⊢
  obtain ⟨dir, hdir, info, hinfo, model, hmodel, words, hwords, responses, hresponses, hbot⟩ := h
  cases hbot
  exact ⟨dir, hdirectory.trans hdir, info, hinfo, model, hmodel, words, hwords, responses,
    hresponses, rfl⟩

/-- The destination of a bot whose directory has an extension has the directory's name. -/
theorem ChatBot.installed_name_eq {bot : ChatBot}
    (h : bot.fileNameComponents =
      (bot.url.deletingPathExtension.lastPathComponent, bot.url.pathExtension))
    (hext : bot.url.pathExtension ≠ "") : bot.installedName = bot.url.lastPathComponent := by
  rw [ChatBot.installedName, h]
  exact split_extension_join hext

/-- A loaded bot is free or has a copy in the user's documents. -/
def ChatBot.isLocal (fs : FileSystem) (bot : ChatBot) : Bool :=
  if bot.isFree then true
  else if fs.documentDirectory then fs.checkResourceIsReachable bot.destinationUrl
  else false

/-- Whether a bot is installed depends on its tags and on one entry of one folder only. -/
theorem ChatBot.is_local_congr {fs other : FileSystem} {bot : ChatBot}
    (hdocuments : other.documentDirectory = fs.documentDirectory)
    (hdirectory : other.directory bot.destinationUrl = fs.directory bot.destinationUrl) :
    bot.isLocal other = bot.isLocal fs := by
  simp [ChatBot.isLocal, FileSystem.checkResourceIsReachable, hdocuments, hdirectory]

/-- Two bots with one destination, both free or both not: a copy of the one installs the
other. -/
def ChatBot.sharesCopy (bot other : ChatBot) : Bool :=
  bot.destinationUrl == other.destinationUrl && bot.isFree == other.isFree

theorem ChatBot.is_local_of_shares_copy {bot other : ChatBot} (fs : FileSystem)
    (h : bot.sharesCopy other = true) : bot.isLocal fs = other.isLocal fs := by
  simp only [ChatBot.sharesCopy, Bool.and_eq_true, beq_iff_eq] at h
  simp [ChatBot.isLocal, h.1, h.2]

/-- A bot that is not free is installed if its destination is reachable. -/
theorem ChatBot.is_local_of_not_free {fs : FileSystem} {bot : ChatBot} (hfree : bot.isFree = false)
    (hdocuments : fs.documentDirectory = true) :
    bot.isLocal fs = fs.checkResourceIsReachable bot.destinationUrl := by
  simp [ChatBot.isLocal, hfree, hdocuments]

end AiGramLib
