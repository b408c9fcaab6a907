import Mathlib.Data.List.Dedup
import AiGramLib.Bots.Folders
import AiGramLib.CopyCall

/-!
# Installed bots after a relaunch

`copyBot` names the directory it makes after `fileNameComponents`, `isLocal` asks for the same
directory, and `ChatBot.init` looks in it for files named after the directory. The three agree
for every directory with an extension, so a bot that has been copied is loaded from its copy as
it was loaded from the bundle (`copy_bot_installs`), and later copies leave it alone.
`relaunch_restores` puts this together for any sequence of calls.
-/

namespace AiGramLib

/-- Calls of `copyBot` one after another, in which no operation fails: the file system they
leave and the stages in which they end. -/
def copyBots (fs : FileSystem) : List ChatBot → FileSystem × List CopyStage
  | [] => (fs, [])
  | bot :: rest =>
      let effect := copyBot bot (fun _ => .ok) fs
      let following := copyBots effect.fs rest
      (following.1, effect.stage :: following.2)

/-- The bot that is loaded from the copy of a bot. -/
def ChatBot.installedCopy (bot : ChatBot) : ChatBot :=
  { bot with url := bot.destinationUrl, index := 0 }

/-- A bot that has been loaded from the bundle and is not free. -/
structure Installable (fs : FileSystem) (bot : ChatBot) : Prop where
  listed : bot.url ∈ fs.bundleUrls
  loaded : ChatBot.init fs bot.url = some { bot with index := 0 }
  paid : bot.isFree = false

variable {bot : ChatBot} {fs : FileSystem}

namespace Installable

theorem located (h : Installable fs bot) : bot.url.folder = .bundleBots ∧
    bot.installedName = bot.url.lastPathComponent := by
  obtain ⟨hfolder, -, hext⟩ := FileSystem.mem_bundle_urls.mp h.listed
  exact ⟨hfolder, ChatBot.installed_name_eq (ChatBot.located_of_init h.loaded).2.2
    (by rw [hext]; decide)⟩

/-- Two bots of the bundle with one destination come from one directory. -/
theorem url_eq {other : ChatBot} (h : Installable fs bot) (hother : Installable fs other)
    (hsame : other.destinationUrl = bot.destinationUrl) : other.url = bot.url := by
  have hname : other.url.lastPathComponent = bot.url.lastPathComponent := by
    rw [← h.located.2, ← hother.located.2]
    exact (URL.mk.inj hsame).2
  cases hurl : bot.url with
  | mk folder name =>
      cases hplace : other.url with
      | mk place component =>
          have hfolder := h.located.1
          have hplaced := hother.located.1
          simp only [hurl, hplace] at hname hfolder hplaced
          rw [hname, hfolder, hplaced]

/-- So they have one name. -/
theorem name_eq {other : ChatBot} (h : Installable fs bot) (hother : Installable fs other)
    (hsame : other.destinationUrl = bot.destinationUrl) : other.name = bot.name := by
  have hloaded := hother.loaded
  rw [h.url_eq hother hsame, h.loaded] at hloaded
  have hinfo := congrArg ChatBot.info (Option.some.inj hloaded)
  exact congrArg ChatBotInfo.name hinfo.symm

theorem congr_bundle {other : FileSystem} (h : Installable fs bot)
    (hbundle : other.bundle = fs.bundle) : Installable other bot where
  listed := by
    rw [bundle_urls_congr hbundle]
    exact h.listed
  loaded := (init_bundle_congr hbundle h.located.1).trans h.loaded
  paid := h.paid

theorem directory (h : Installable fs bot) : (fs.directory bot.url).isSome = true :=
  (FileSystem.mem_bundle_urls.mp h.listed).2.1

/-- Where the directory of the bundle lies at the destination, the copy of the bot is loaded. -/
theorem init_copy {other : FileSystem} (h : Installable fs bot)
    (hdirectory : other.directory bot.destinationUrl = fs.directory bot.url) :
    ChatBot.init other bot.destinationUrl = some bot.installedCopy :=
  ChatBot.init_of_directory h.located.2 hdirectory h.loaded

end Installable

/-- From the copy on: with nothing at the destination, the directory is put there and reloaded. -/
theorem run_copy_from_copy (h : Installable fs bot) (now : FileSystem)
    (hbundle : now.bundle = fs.bundle) (hfolder : now.chatbots.isSome = true)
    (hnone : now.directory bot.destinationUrl = none) (steps : Nat) :
    (runCopy bot (fun _ => .ok) (steps + 2) { fs := now, stage := .copy }).stage =
      .returned true ∧
    (runCopy bot (fun _ => .ok) (steps + 2) { fs := now, stage := .copy }).fs.directory
      bot.destinationUrl = fs.directory bot.url := by
  obtain ⟨dir, hdir⟩ := Option.isSome_iff_exists.mp h.directory
  have hsource : now.directory bot.url = some dir := by
    rw [← hdir]
    simp only [FileSystem.directory, h.located.1, hbundle]
  let copied := now.replace bot.destinationUrl.lastPathComponent (some dir)
  have hplaced : copied.directory bot.destinationUrl = some dir :=
    FileSystem.directory_replace_self hfolder bot.installedName (some dir)
  have hcopy : copyStep bot now .copy .ok = some { fs := copied, stage := .reload } := by
    simp [copyStep, FileSystem.copyItem, FileSystem.checkResourceIsReachable, hnone, hsource,
      hfolder, copied]
  have hreload : copyStep bot copied .reload .ok =
      some { fs := copied, stage := .returned true, newBot := some bot.installedCopy } := by
    simp [copyStep, h.init_copy (hplaced.trans hdir.symm)]
  have hrun : runCopy bot (fun _ => .ok) (steps + 2) { fs := now, stage := .copy } =
      { fs := copied, stage := .returned true, newBot := some bot.installedCopy } := by
    simp only [runCopy, hcopy, hreload]
    cases steps <;> rfl
  rw [hrun]
  exact ⟨rfl, hplaced.trans hdir.symm⟩

/-- A call for a bot of the bundle returns true and leaves its directory at the destination. -/
theorem copy_bot_installs (h : Installable fs bot) (hdocuments : fs.documentDirectory = true) :
    (copyBot bot (fun _ => .ok) fs).stage = .returned true ∧
    (copyBot bot (fun _ => .ok) fs).fs.directory bot.destinationUrl = fs.directory bot.url := by
  have hguards : copyStep bot fs .guards .ok = some { fs, stage := .createFolder } := by
    simp [copyStep, h.paid, hdocuments]
  have hfolder : ∃ created,
      copyStep bot fs .createFolder .ok = some { fs := created, stage := .probe } ∧
      created.chatbots.isSome = true ∧ created.bundle = fs.bundle := by
    cases hchatbots : fs.chatbots.isSome with
    | true => exact ⟨fs, by simp [copyStep, hchatbots], hchatbots, rfl⟩
    | false =>
        exact ⟨{ fs with chatbots := some (fs.chatbots.getD ∅) },
          by simp [copyStep, hchatbots, FileSystem.createDirectory], rfl, rfl⟩
  obtain ⟨created, hcreate, hchatbots, hbundle⟩ := hfolder
  cases hreachable : created.checkResourceIsReachable bot.destinationUrl with
  | false =>
      have hprobe : copyStep bot created .probe .ok = some { fs := created, stage := .copy } := by
        simp [copyStep, hreachable]
      have hnone : created.directory bot.destinationUrl = none := by
        simpa [FileSystem.checkResourceIsReachable] using hreachable
      have hcopied := run_copy_from_copy h created hbundle hchatbots hnone 1
      simp only [copyBot, runCopy, hguards, hcreate, hprobe]
      exact hcopied
  | true =>
      have hprobe : copyStep bot created .probe .ok = some { fs := created, stage := .remove } := by
        simp [copyStep, hreachable]
      let removed := created.replace bot.destinationUrl.lastPathComponent none
      have hremove : copyStep bot created .remove .ok =
          some { fs := removed, stage := .copy } := by
        simp [copyStep, FileSystem.removeItem, hreachable, removed]
      have hcopied := run_copy_from_copy h removed hbundle
        ((FileSystem.replace_chatbots_is_some _ _ _).trans hchatbots)
        (FileSystem.directory_replace_self hchatbots bot.installedName none) 0
      simp only [copyBot, runCopy, hguards, hcreate, hprobe, hremove]
      exact hcopied

section

variable {copied : List ChatBot}

theorem copy_bots_document_directory (fs : FileSystem) (copied : List ChatBot) :
    (copyBots fs copied).1.documentDirectory = fs.documentDirectory := by
  induction copied generalizing fs with
  | nil => rfl
  | cons bot rest ih => exact (ih _).trans (copy_bot_document_directory _)

theorem copy_bots_frame {url : URL} (h : ∀ bot ∈ copied, url ≠ bot.destinationUrl) :
    (copyBots fs copied).1.directory url = fs.directory url := by
  induction copied generalizing fs with
  | nil => rfl
  | cons bot rest ih =>
      exact (ih fun other hother => h other (List.mem_cons_of_mem _ hother)).trans
        (copy_bot_frame _ (h bot List.mem_cons_self))

/-- The calls after the first one find the bots of the bundle as it did. -/
theorem installable_rest {rest : List ChatBot} (h : ∀ other ∈ bot :: rest, Installable fs other) :
    ∀ other ∈ rest, Installable (copyBot bot (fun _ => .ok) fs).fs other := fun other hother =>
  (h other (List.mem_cons_of_mem _ hother)).congr_bundle (copy_bot_bundle _)

/-- Every call returns true. -/
theorem copy_bots_returned (h : ∀ bot ∈ copied, Installable fs bot)
    (hdocuments : fs.documentDirectory = true) :
    ∀ stage ∈ (copyBots fs copied).2, stage = .returned true := by
  induction copied generalizing fs with
  | nil => simp [copyBots]
  | cons bot rest ih =>
      intro stage hstage
      rcases List.mem_cons.mp hstage with rfl | hrest
      · exact (copy_bot_installs (h bot List.mem_cons_self) hdocuments).1
      · exact ih (installable_rest h)
          ((copy_bot_document_directory _).trans hdocuments) stage hrest

/-- Each destination ends up with the directory of the bundle, whatever is copied after it. -/
theorem copy_bots_directory (h : ∀ bot ∈ copied, Installable fs bot)
    (hdocuments : fs.documentDirectory = true) :
    ∀ bot ∈ copied,
      (copyBots fs copied).1.directory bot.destinationUrl = fs.directory bot.url := by
  induction copied generalizing fs with
  | nil => simp
  | cons first rest ih =>
      have hfirst := h first List.mem_cons_self
      have hsource : ∀ bot ∈ rest, (copyBot first (fun _ => .ok) fs).fs.directory bot.url =
          fs.directory bot.url := by
        intro bot hbot
        have hfolder := (h bot (List.mem_cons_of_mem _ hbot)).located.1
        simp only [FileSystem.directory, hfolder, copy_bot_bundle]
      have hrest : ∀ bot ∈ rest, (copyBots fs (first :: rest)).1.directory bot.destinationUrl =
          fs.directory bot.url := fun bot hbot =>
        (ih (installable_rest h) ((copy_bot_document_directory _).trans hdocuments) bot hbot).trans
          (hsource bot hbot)
      intro bot hbot
      rcases List.mem_cons.mp hbot with rfl | hlater
      · by_cases hagain : ∃ other ∈ rest, bot.destinationUrl = other.destinationUrl
        · obtain ⟨other, hother, hsame⟩ := hagain
          rw [hsame, hrest other hother,
            hfirst.url_eq (h other (List.mem_cons_of_mem _ hother)) hsame.symm]
        · refine (copy_bots_frame fun other hother hsame => hagain ⟨other, hother, hsame⟩).trans ?_
          exact (copy_bot_installs hfirst hdocuments).2
      · exact hrest bot hlater

/-- With nothing there at first, the entries of the folder are the destinations of the copied
bots. -/
theorem copy_bots_is_some_iff (h : ∀ bot ∈ copied, Installable fs bot)
    (hdocuments : fs.documentDirectory = true) (hempty : fs.chatbots.getD ∅ = ∅) {url : URL}
    (hfolder : url.folder = .chatbots) :
    ((copyBots fs copied).1.directory url).isSome = true ↔
      ∃ bot ∈ copied, url = bot.destinationUrl := by
  constructor
  · intro hsome
    by_contra hnone
    rw [copy_bots_frame fun bot hbot hurl => hnone ⟨bot, hbot, hurl⟩] at hsome
    cases hchatbots : fs.chatbots with
    | none => simp [FileSystem.directory, hfolder, hchatbots] at hsome
    | some entries =>
        obtain rfl : entries = ∅ := by simpa [hchatbots] using hempty
        simp [FileSystem.directory, hfolder, hchatbots] at hsome
  · rintro ⟨bot, hbot, rfl⟩
    rw [copy_bots_directory h hdocuments bot hbot]
    exact (h bot hbot).directory

/-- After any sequence of calls for paid bots of the bundle, all of which return true, the next
launch finds each of the copied bots once, with all that was loaded from the bundle, and
`isLocal` holds of these bots and the free ones. -/
theorem relaunch_restores (hdocuments : fs.documentDirectory = true)
    (hempty : fs.chatbots.getD ∅ = ∅) (hvisible : ∀ url ∈ fs.bundleUrls, url.isHidden = false)
    (h : ∀ bot ∈ copied, Installable fs bot) {after : FileSystem} {returned : List CopyStage}
    (hcopies : copyBots fs copied = (after, returned)) {localUrls : List URL}
    (hurls : localUrls.Perm (after.createChatbots .ok).contentsOfDirectory) :
    (∀ stage ∈ returned, stage = .returned true) ∧
    (localBots (after.createChatbots .ok) localUrls).Perm
      (copied.map ChatBot.installedCopy).dedup ∧
    ∀ bot : ChatBot, bot.url ∈ fs.bundleUrls →
      ChatBot.init fs bot.url = some { bot with index := 0 } →
      (bot.isLocal (after.createChatbots .ok) = true ↔
        bot.isFree = true ∨ ∃ other ∈ copied, other.url = bot.url) := by
  obtain ⟨rfl, rfl⟩ := Prod.mk.inj hcopies
  have hdocumentsAfter :
      ((copyBots fs copied).1.createChatbots .ok).documentDirectory = true := by
    rw [document_directory_create_chatbots, copy_bots_document_directory, hdocuments]
  have hinit : ∀ bot ∈ copied, ChatBot.init ((copyBots fs copied).1.createChatbots .ok)
      bot.destinationUrl = some bot.installedCopy := fun bot hbot =>
    (h bot hbot).init_copy ((directory_create_chatbots _ _ _).trans
      (copy_bots_directory h hdocuments bot hbot))
  refine ⟨copy_bots_returned h hdocuments, ?_, ?_⟩
  · refine (List.perm_ext_iff_of_nodup ?_ (List.nodup_dedup _)).mpr fun bot => ?_
    · exact nodup_local_bots (hurls.nodup_iff.mpr (nodup_contents_of_directory _))
    · simp only [mem_local_bots, hdocumentsAfter, true_and, List.mem_dedup, List.mem_map,
        hurls.mem_iff, FileSystem.mem_contents_of_directory, directory_create_chatbots]
      constructor
      · rintro ⟨url, ⟨hfolder, hsome, -⟩, hbot, -⟩
        obtain ⟨other, hother, rfl⟩ :=
          (copy_bots_is_some_iff h hdocuments hempty hfolder).mp hsome
        exact ⟨other, hother, Option.some.inj ((hinit other hother).symm.trans hbot)⟩
      · rintro ⟨other, hother, rfl⟩
        have hhidden : other.destinationUrl.isHidden = false := by
          have hurl := hvisible other.url (h other hother).listed
          simpa [URL.isHidden, ChatBot.destinationUrl, (h other hother).located.2] using hurl
        exact ⟨other.destinationUrl,
          ⟨rfl, (copy_bots_is_some_iff h hdocuments hempty rfl).mpr ⟨other, hother, rfl⟩, hhidden⟩,
          hinit other hother, (h other hother).paid⟩
  · intro bot hlisted hloaded
    cases hfree : bot.isFree with
    | true => simp [ChatBot.isLocal, hfree]
    | false =>
        have hbot : Installable fs bot := ⟨hlisted, hloaded, hfree⟩
        rw [ChatBot.is_local_of_not_free hfree hdocumentsAfter,
          FileSystem.checkResourceIsReachable, directory_create_chatbots,
          copy_bots_is_some_iff h hdocuments hempty rfl]
        simp only [Bool.false_eq_true, false_or]
        refine exists_congr fun other => and_congr_right fun hother => ?_
        constructor
        · exact fun hsame => hbot.url_eq (h other hother) hsame.symm
        · intro hurl
          rw [ChatBot.destinationUrl, ChatBot.destinationUrl, hbot.located.2,
            (h other hother).located.2, hurl]

/-- Two bots are copied, one of them twice, and a third one is not. -/
theorem relaunch_restores_run :
    ∃ after : FileSystem,
      (copyBots (.fresh ["a", "b", "c"]) [.named "a", .named "b", .named "a"]).1 = after ∧
      (localBots (after.createChatbots .ok)
        [⟨.chatbots, "a.chatbot"⟩, ⟨.chatbots, "b.chatbot"⟩]).Perm
        [(ChatBot.named "b").installedCopy, (ChatBot.named "a").installedCopy] ∧
      (ChatBot.named "c").isLocal (after.createChatbots .ok) = false := by
  have hinstallable : ∀ bot ∈ [ChatBot.named "a", .named "b", .named "a"],
      Installable (.fresh ["a", "b", "c"]) bot := by
    simp only [List.forall_mem_cons, List.not_mem_nil, false_implies, implies_true, and_true]
    exact ⟨⟨by decide, by decide, by decide⟩, ⟨by decide, by decide, by decide⟩,
      ⟨by decide, by decide, by decide⟩⟩
  obtain ⟨-, hlocal, hisLocal⟩ := relaunch_restores (by decide) rfl (by decide)
    hinstallable rfl (by decide : [⟨.chatbots, "a.chatbot"⟩, ⟨.chatbots, "b.chatbot"⟩].Perm _)
  refine ⟨_, rfl, hlocal.trans (by decide), ?_⟩
  exact Bool.eq_false_iff.mpr ((hisLocal (.named "c") (by decide) (by decide)).not.mpr (by decide))

end

end AiGramLib
