import AiGramLib.LocalBot

/-!
# The two folders bots are taken from

`freeBots` takes the free bots of the bundle and `localBots` the others from the `chatbots`
folder of the user's documents. What `localBots` makes of a directory is `localName`; creating
the folder and replacing the bundle do not change it.
-/

namespace AiGramLib

/-- A directory that `skipsHiddenFiles` leaves out. -/
def URL.isHidden (url : URL) : Bool := url.lastPathComponent.toList.head? == some '.'

namespace FileSystem

/-- `urls(forResourcesWithExtension: ChatBot.botExtension, subdirectory: "bots")`, in one of the
orders in which it may list them. -/
def bundleUrls (fs : FileSystem) : List URL :=
  (fs.bundle.keys.map fun name => ⟨.bundleBots, name⟩).filter fun url =>
    url.pathExtension == ChatBot.botExtension

/-- `contentsOfDirectory(at:options:)` for the `chatbots` folder, in one of the orders. -/
def contentsOfDirectory (fs : FileSystem) : List URL :=
  ((fs.chatbots.getD ∅).keys.map fun name => ⟨.chatbots, name⟩).filter fun url => !url.isHidden

theorem mem_bundle_urls {fs : FileSystem} {url : URL} :
    url ∈ fs.bundleUrls ↔ url.folder = .bundleBots ∧ (fs.directory url).isSome = true ∧
      url.pathExtension = ChatBot.botExtension := by
  obtain ⟨folder, name⟩ := url
  cases folder <;>
    simp [bundleUrls, directory, ← AList.mem_keys, ← AList.lookup_isSome]

theorem mem_contents_of_directory {fs : FileSystem} {url : URL} :
    url ∈ fs.contentsOfDirectory ↔ url.folder = .chatbots ∧ (fs.directory url).isSome = true ∧
      url.isHidden = false := by
  obtain ⟨folder, name⟩ := url
  obtain ⟨bundle, documentDirectory, chatbots⟩ := fs
  cases folder <;> cases chatbots <;>
    simp [contentsOfDirectory, directory, ← AList.mem_keys, ← AList.lookup_isSome]

/-- The folder that `localBots` creates if it is not reachable; a failure is ignored. -/
def createChatbots (fs : FileSystem) (outcome : Outcome) : FileSystem :=
  if fs.documentDirectory && !fs.chatbots.isSome then (fs.createDirectory outcome).getD fs else fs

/-- The name under which `localBots` takes up a directory, if it does. -/
def localName (fs : FileSystem) (url : URL) : Option ChatBotId :=
  if url.isHidden then none
  else ((ChatBot.init fs url).filter fun bot => !bot.isFree).map ChatBot.name

end FileSystem

/-- `freeBots`, for the URLs that the bundle lists. -/
def freeBots (fs : FileSystem) (urls : List URL) : List ChatBot :=
  urls.filterMap fun url => (ChatBot.init fs url).filter fun bot => bot.isFree

/-- `localBots`, for the URLs that the `chatbots` folder lists. -/
def localBots (fs : FileSystem) (urls : List URL) : List ChatBot :=
  if fs.documentDirectory then
    urls.filterMap fun url => (ChatBot.init fs url).filter fun bot => !bot.isFree
  else []

section

variable {fs other : FileSystem} {url : URL} {name : ChatBotId}

/-- What `localBots` makes of a directory depends on that directory only. -/
theorem local_name_congr (h : other.directory url = fs.directory url) :
    other.localName url = fs.localName url := by
  simp only [FileSystem.localName, ChatBot.init_congr h]

theorem local_name_of_no_directory (h : fs.directory url = none) :
    fs.localName url = none := by
  simp [FileSystem.localName, ChatBot.init, h]

theorem local_name_eq_some : fs.localName url = some name ↔
    url.isHidden = false ∧
      ∃ bot, ChatBot.init fs url = some bot ∧ bot.isFree = false ∧ bot.name = name := by
  cases hhidden : url.isHidden <;>
    simp [FileSystem.localName, hhidden, Option.filter_eq_some_iff, and_assoc]

theorem mem_contents_of_local_name (hfolder : url.folder = .chatbots)
    (h : fs.localName url = some name) : url ∈ fs.contentsOfDirectory := by
  obtain ⟨hhidden, bot, hinit, -, -⟩ := local_name_eq_some.mp h
  exact FileSystem.mem_contents_of_directory.mpr
    ⟨hfolder, ChatBot.directory_of_init hinit, hhidden⟩

theorem bundle_urls_congr (h : other.bundle = fs.bundle) : other.bundleUrls = fs.bundleUrls := by
  simp only [FileSystem.bundleUrls, h]

/-- Loading from the bundle reads the bundle only. -/
theorem init_bundle_congr (h : other.bundle = fs.bundle) (hfolder : url.folder = .bundleBots) :
    ChatBot.init other url = ChatBot.init fs url :=
  ChatBot.init_congr (by simp only [FileSystem.directory, hfolder, h])

theorem folder_of_mem_bundle_urls (h : url ∈ fs.bundleUrls) : url.folder = .bundleBots :=
  (FileSystem.mem_bundle_urls.mp h).1

/-- Creating the `chatbots` folder changes no directory. -/
theorem directory_create_chatbots (fs : FileSystem) (outcome : Outcome) (url : URL) :
    (fs.createChatbots outcome).directory url = fs.directory url := by
  unfold FileSystem.createChatbots
  split
  · cases hcreate : fs.createDirectory outcome with
    | none => rfl
    | some created => exact FileSystem.directory_create hcreate url
  · rfl

theorem bundle_create_chatbots (fs : FileSystem) (outcome : Outcome) :
    (fs.createChatbots outcome).bundle = fs.bundle := by
  unfold FileSystem.createChatbots
  split
  · cases hcreate : fs.createDirectory outcome with
    | none => rfl
    | some created => exact FileSystem.bundle_create hcreate
  · rfl

theorem document_directory_create_chatbots (fs : FileSystem) (outcome : Outcome) :
    (fs.createChatbots outcome).documentDirectory = fs.documentDirectory := by
  unfold FileSystem.createChatbots
  split
  · cases hcreate : fs.createDirectory outcome with
    | none => rfl
    | some created => exact FileSystem.document_directory_create hcreate
  · rfl

/-- Nor does it add an entry. -/
theorem contents_create_chatbots (fs : FileSystem) (outcome : Outcome) :
    (fs.createChatbots outcome).contentsOfDirectory = fs.contentsOfDirectory := by
  unfold FileSystem.createChatbots
  split
  · cases outcome with
    | ok => simp [FileSystem.createDirectory, FileSystem.contentsOfDirectory]
    | fails left => rfl
  · rfl

/-- An update of the bundle leaves the installed copies. -/
theorem local_name_update (fs : FileSystem) (bundle : Entries) (h : url.folder = .chatbots) :
    ({ fs with bundle } : FileSystem).localName url = fs.localName url :=
  local_name_congr (by simp only [FileSystem.directory, h])

theorem nodup_bundle_urls (fs : FileSystem) : fs.bundleUrls.Nodup :=
  (fs.bundle.keys_nodup.map fun _ _ h => (URL.mk.inj h).2).filter _

theorem nodup_contents_of_directory (fs : FileSystem) : fs.contentsOfDirectory.Nodup :=
  ((fs.chatbots.getD ∅).keys_nodup.map fun _ _ h => (URL.mk.inj h).2).filter _

/-- `localBots` takes the names of the directories it lists, if there are documents at all. -/
theorem names_local_bots (fs : FileSystem) {urls : List URL}
    (hvisible : ∀ url ∈ urls, url.isHidden = false) :
    ((localBots fs urls).map ChatBot.name).Sublist (urls.filterMap fs.localName) := by
  unfold localBots
  split
  · rw [List.map_filterMap, List.filterMap_congr (g := fs.localName)]
    intro url hurl
    simp [FileSystem.localName, hvisible url hurl]
  · exact List.nil_sublist _

theorem mem_local_bots {bot : ChatBot} {urls : List URL} : bot ∈ localBots fs urls ↔
    fs.documentDirectory = true ∧
      ∃ url ∈ urls, ChatBot.init fs url = some bot ∧ bot.isFree = false := by
  cases hdocuments : fs.documentDirectory <;>
    simp [localBots, hdocuments, Option.filter_eq_some_iff]

/-- Each listed address gives one bot at most, so no bot is listed twice. -/
theorem nodup_local_bots {urls : List URL} (h : urls.Nodup) : (localBots fs urls).Nodup := by
  unfold localBots
  split
  · refine List.Nodup.filterMap (fun url place bot hbot hother => ?_) h
    obtain ⟨hinit, -⟩ := Option.filter_eq_some_iff.mp hbot
    obtain ⟨hloaded, -⟩ := Option.filter_eq_some_iff.mp hother
    exact (ChatBot.located_of_init hinit).1.symm.trans (ChatBot.located_of_init hloaded).1
  · exact List.nodup_nil

end

end AiGramLib
