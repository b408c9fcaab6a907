import Mathlib.Data.List.AList
import AiGramLib.Entities

/-!
# Bot directories on disk

The part of the file system that the library reads and writes: the bot directories of the
bundle, which never change while the app runs, and the `chatbots` folder of the user's
documents. A file is represented by what `JSONDecoder` makes of its bytes for each of the
three types the library decodes. An operation that writes takes its outcome as an
argument, so that a failure may leave anything behind at the path it was working on and
nothing elsewhere (`directory_replace_of_ne`).
-/

namespace AiGramLib

/-- A file, by the results of decoding it as each of the types the library asks for. -/
structure File where
  asInfo : Option ChatBotInfo
  asWords : Option (List String)
  asResponses : Option (List BotResponse)
  deriving DecidableEq, Repr

/-- A bot directory: its files by name. -/
abbrev Directory := AList fun _ : String => File

/-- A folder of bot directories, by last path component. -/
abbrev Entries := AList fun _ : String => Directory

structure FileSystem where
  /-- The `bots` subdirectory of the bundle. -/
  bundle : Entries
  /-- Whether `urls(for: .documentDirectory, in: .userDomainMask)` gives a URL. -/
  documentDirectory : Bool
  /-- The `chatbots` folder in it; `none` while it does not exist. -/
  chatbots : Option Entries

/-- How an operation of the file manager ended. A failure leaves an arbitrary item, or none,
at the path the operation was changing. -/
inductive Outcome where
  | ok
  | fails (left : Option Directory)

def Outcome.isOk : Outcome → Bool
  | .ok => true
  | .fails _ => false

theorem Outcome.eq_ok {outcome : Outcome} (h : outcome.isOk = true) : outcome = .ok := by
  cases outcome with
  | ok => rfl
  | fails left => cases h

/-- There is an item at the path after a copy to it. -/
def Outcome.leavesItem : Outcome → Bool
  | .ok => true
  | .fails left => left.isSome

/-- What an operation that puts nothing in its place leaves there. -/
def Outcome.leftover : Outcome → Option Directory
  | .ok => none
  | .fails left => left

/-- A copy that failed left nothing behind. -/
def Outcome.allOrNothing : Outcome → Bool
  | .ok => true
  | .fails left => left.isNone

namespace FileSystem

/-- The bot directory at an address. -/
def directory (fs : FileSystem) (url : URL) : Option Directory :=
  match url.folder with
  | .bundleBots => fs.bundle.lookup url.lastPathComponent
  | .chatbots => fs.chatbots.bind fun entries => entries.lookup url.lastPathComponent

/-- `(try? url.checkResourceIsReachable()) ?? false`. -/
def checkResourceIsReachable (fs : FileSystem) (url : URL) : Bool :=
  (fs.directory url).isSome

/-- Put an item, or none, in the place of one entry of the `chatbots` folder. -/
def replace (fs : FileSystem) (name : String) (item : Option Directory) : FileSystem :=
  { fs with
    chatbots := fs.chatbots.map fun entries =>
      match item with
      | some dir => entries.insert name dir
      | none => entries.erase name }

/-- `createDirectory` for the `chatbots` folder; `none` where it throws. -/
def createDirectory (fs : FileSystem) : Outcome → Option FileSystem
  | .ok => some { fs with chatbots := some (fs.chatbots.getD ∅) }
  | .fails _ => none

/-- `try? removeItem(at:)` for an entry of the `chatbots` folder. Removing what is not there
throws and changes nothing. -/
def removeItem (fs : FileSystem) (url : URL) (outcome : Outcome) : FileSystem :=
  if fs.checkResourceIsReachable url then
    match outcome with
    | .ok => fs.replace url.lastPathComponent none
    | .fails left => fs.replace url.lastPathComponent left
  else fs

/-- `copyItem(at:to:)` into the `chatbots` folder, and whether it returned without throwing. It
throws when there is an item at the destination or none at the source. -/
def copyItem (fs : FileSystem) (source destination : URL) (outcome : Outcome) :
    FileSystem × Bool :=
  if fs.checkResourceIsReachable destination then (fs, false)
  else
    match fs.directory source, outcome with
    | none, _ => (fs, false)
    | some dir, .ok => (fs.replace destination.lastPathComponent (some dir), fs.chatbots.isSome)
    | some _, .fails left => (fs.replace destination.lastPathComponent left, false)

@[simp] theorem replace_chatbots_is_some (fs : FileSystem) (name : String)
    (item : Option Directory) : (fs.replace name item).chatbots.isSome = fs.chatbots.isSome := by
  simp [replace]

/-- Within an existing folder the replaced entry is what was put there. -/
theorem directory_replace_self {fs : FileSystem} (h : fs.chatbots.isSome = true) (name : String)
    (item : Option Directory) : (fs.replace name item).directory ⟨.chatbots, name⟩ = item := by
  obtain ⟨entries, hentries⟩ := Option.isSome_iff_exists.mp h
  cases item with
  | none => simp [replace, directory, hentries]
  | some dir => simp [replace, directory, hentries]

/-- Every other address keeps its directory. -/
theorem directory_replace_of_ne {fs : FileSystem} {name : String} {item : Option Directory}
    {url : URL} (h : url ≠ ⟨.chatbots, name⟩) :
    (fs.replace name item).directory url = fs.directory url := by
  obtain ⟨folder, component⟩ := url
  cases folder with
  | bundleBots => rfl
  | chatbots =>
      have hne : component ≠ name := fun heq => h (by rw [heq])
      cases fs with
      | mk bundle documentDirectory chatbots =>
          cases chatbots with
          | none => rfl
          | some entries =>
              cases item with
              | none => simp [replace, directory, AList.lookup_erase_ne hne]
              | some dir => simp [replace, directory, AList.lookup_insert_ne hne]

/-- Nothing is reachable in a folder that does not exist. -/
theorem directory_of_no_folder {fs : FileSystem} (h : fs.chatbots = none) (name : String) :
    fs.directory ⟨.chatbots, name⟩ = none := by
  simp [directory, h]

/-- Creating the folder adds no entry and removes none. -/
theorem directory_create {fs created : FileSystem} {outcome : Outcome}
    (h : fs.createDirectory outcome = some created) (url : URL) :
    created.directory url = fs.directory url := by
  cases outcome with
  | fails left => cases h
  | ok =>
      cases h
      cases fs with
      | mk bundle documentDirectory chatbots =>
          cases hfolder : url.folder <;> cases chatbots <;> simp [directory, hfolder]

/-- `removeItem` keeps every directory but the one it removes. -/
theorem directory_remove_of_ne (fs : FileSystem) {url other : URL} (outcome : Outcome)
    (hfolder : url.folder = .chatbots) (h : other ≠ url) :
    (fs.removeItem url outcome).directory other = fs.directory other := by
  have hne : other ≠ ⟨.chatbots, url.lastPathComponent⟩ := by
    rw [← hfolder]
    exact h
  unfold removeItem
  split
  · cases outcome <;> exact directory_replace_of_ne hne
  · rfl

/-- `copyItem` keeps every directory but its destination. -/
theorem directory_copy_of_ne (fs : FileSystem) (source : URL) {destination other : URL}
    (outcome : Outcome) (hfolder : destination.folder = .chatbots) (h : other ≠ destination) :
    (fs.copyItem source destination outcome).1.directory other = fs.directory other := by
  have hne : other ≠ ⟨.chatbots, destination.lastPathComponent⟩ := by
    rw [← hfolder]
    exact h
  unfold copyItem
  split
  · rfl
  · split
    · rfl
    · exact directory_replace_of_ne hne
    · exact directory_replace_of_ne hne

theorem document_directory_create {fs created : FileSystem} {outcome : Outcome}
    (h : fs.createDirectory outcome = some created) :
    created.documentDirectory = fs.documentDirectory := by
  cases outcome with
  | ok =>
      cases h
      rfl
  | fails left => cases h

theorem document_directory_remove (fs : FileSystem) (url : URL) (outcome : Outcome) :
    (fs.removeItem url outcome).documentDirectory = fs.documentDirectory := by
  unfold removeItem
  split
  · cases outcome <;> rfl
  · rfl

theorem document_directory_copy (fs : FileSystem) (source destination : URL)
    (outcome : Outcome) :
    (fs.copyItem source destination outcome).1.documentDirectory = fs.documentDirectory := by
  unfold copyItem
  split
  · rfl
  · split <;> rfl

theorem bundle_create {fs created : FileSystem} {outcome : Outcome}
    (h : fs.createDirectory outcome = some created) : created.bundle = fs.bundle := by
  cases outcome with
  | ok =>
      cases h
      rfl
  | fails left => cases h

theorem bundle_remove (fs : FileSystem) (url : URL) (outcome : Outcome) :
    (fs.removeItem url outcome).bundle = fs.bundle := by
  unfold removeItem
  split
  · cases outcome <;> rfl
  · rfl

theorem bundle_copy (fs : FileSystem) (source destination : URL) (outcome : Outcome) :
    (fs.copyItem source destination outcome).1.bundle = fs.bundle := by
  unfold copyItem
  split
  · rfl
  · split <;> rfl

theorem chatbots_remove (fs : FileSystem) (url : URL) (outcome : Outcome) :
    (fs.removeItem url outcome).chatbots.isSome = fs.chatbots.isSome := by
  unfold removeItem
  split
  · cases outcome <;> exact replace_chatbots_is_some _ _ _
  · rfl

theorem chatbots_copy (fs : FileSystem) (source destination : URL) (outcome : Outcome) :
    (fs.copyItem source destination outcome).1.chatbots.isSome = fs.chatbots.isSome := by
  unfold copyItem
  split
  · rfl
  · split
    · rfl
    · exact replace_chatbots_is_some _ _ _
    · exact replace_chatbots_is_some _ _ _

/-- After a copy that found an item at its destination or left one there, one is there. -/
theorem copy_item_leaves {fs : FileSystem} {source destination : URL} {outcome : Outcome}
    (hfolder : destination.folder = .chatbots) (hexists : fs.chatbots.isSome = true)
    (h : (fs.checkResourceIsReachable destination ||
      fs.checkResourceIsReachable source && outcome.leavesItem) = true) :
    (fs.copyItem source destination outcome).1.checkResourceIsReachable destination = true := by
  obtain ⟨folder, name⟩ := destination
  obtain rfl : folder = .chatbots := hfolder
  unfold copyItem
  split
  · assumption
  · rename_i hnone
    obtain ⟨hsource, hleaves⟩ : fs.checkResourceIsReachable source = true ∧
        outcome.leavesItem = true := by simpa [hnone] using h
    obtain ⟨dir, hdir⟩ := Option.isSome_iff_exists.mp hsource
    cases outcome with
    | ok => simp [hdir, checkResourceIsReachable, directory_replace_self hexists]
    | fails left =>
        have hleft : left.isSome = true := hleaves
        simp [hdir, checkResourceIsReachable, directory_replace_self hexists, hleft]

/-- A copy that does not fail half-way and finds nothing at its destination leaves something
there exactly if it does not throw. -/
theorem copy_item_all_or_nothing {fs : FileSystem} {source destination : URL} {outcome : Outcome}
    (hfolder : destination.folder = .chatbots) (hexists : fs.chatbots.isSome = true)
    (h : (!fs.checkResourceIsReachable destination &&
      (!fs.checkResourceIsReachable source || outcome.allOrNothing)) = true) :
    (fs.copyItem source destination outcome).2 =
      (fs.copyItem source destination outcome).1.checkResourceIsReachable destination := by
  obtain ⟨folder, name⟩ := destination
  obtain rfl : folder = .chatbots := hfolder
  simp only [Bool.and_eq_true, Bool.not_eq_true', Bool.or_eq_true] at h
  obtain ⟨hnone, hclean⟩ := h
  simp only [copyItem, hnone, Bool.false_eq_true, if_false]
  cases hdir : fs.directory source with
  | none => simp [hnone]
  | some dir =>
      have hsource : fs.checkResourceIsReachable source = true := by
        simp [checkResourceIsReachable, hdir]
      cases outcome with
      | ok => simp [checkResourceIsReachable, directory_replace_self hexists, hexists]
      | fails left =>
          have hleft : left = none := by
            simpa [hsource, Outcome.allOrNothing] using hclean
          simp [checkResourceIsReachable, directory_replace_self hexists, hleft]

/-- A removal leaves what its outcome says of a directory that was there. -/
theorem directory_remove_self {fs : FileSystem} {url : URL} (outcome : Outcome)
    (hfolder : url.folder = .chatbots) (hexists : fs.chatbots.isSome = true) :
    (fs.removeItem url outcome).directory url =
      (fs.directory url).bind fun _ => outcome.leftover := by
  obtain ⟨folder, name⟩ := url
  obtain rfl : folder = .chatbots := hfolder
  cases hdirectory : fs.directory ⟨.chatbots, name⟩ with
  | none => simp [removeItem, checkResourceIsReachable, hdirectory]
  | some dir =>
      cases outcome <;>
        simp [removeItem, checkResourceIsReachable, hdirectory, directory_replace_self hexists,
          Outcome.leftover]

/-- A copy that does not throw has found nothing at the destination, and leaves there what it
has found at the source. -/
theorem copy_item_done {fs copied : FileSystem} {source destination : URL} {outcome : Outcome}
    (hfolder : destination.folder = .chatbots) (hexists : fs.chatbots.isSome = true)
    (h : fs.copyItem source destination outcome = (copied, true)) :
    outcome = .ok ∧ fs.directory destination = none ∧
      ∃ dir, fs.directory source = some dir ∧ copied.directory destination = some dir := by
  obtain ⟨folder, name⟩ := destination
  obtain rfl : folder = .chatbots := hfolder
  unfold copyItem at h
  split at h
  · cases h
  · rename_i hnone
    split at h
    · cases h
    · rename_i dir hdir
      obtain ⟨rfl, -⟩ := Prod.mk.inj h
      exact ⟨rfl, by simpa [checkResourceIsReachable] using hnone, dir, hdir,
        directory_replace_self hexists name (some dir)⟩
    · cases h

/-- A copy that throws has found something at the destination or nothing at the source and
changes nothing, or it has failed half-way. -/
theorem copy_item_failed {fs copied : FileSystem} {source destination : URL} {outcome : Outcome}
    (hfolder : destination.folder = .chatbots) (hexists : fs.chatbots.isSome = true)
    (h : fs.copyItem source destination outcome = (copied, false)) :
    (copied = fs ∧ ((fs.directory destination).isSome = true ∨ fs.directory source = none)) ∨
      fs.directory destination = none ∧ (fs.directory source).isSome = true ∧
        ∃ left, outcome = .fails left ∧ copied.directory destination = left := by
  obtain ⟨folder, name⟩ := destination
  obtain rfl : folder = .chatbots := hfolder
  unfold copyItem at h
  split at h
  · rename_i hsome
    cases h
    exact .inl ⟨rfl, .inl hsome⟩
  · rename_i hnone
    split at h
    · rename_i hsource
      cases h
      exact .inl ⟨rfl, .inr hsource⟩
    · simp [hexists] at h
    · rename_i dir left hdir
      cases h
      exact .inr ⟨by simpa [checkResourceIsReachable] using hnone, by rw [hdir]; rfl, left, rfl,
        directory_replace_self hexists name left⟩

end FileSystem

end AiGramLib
