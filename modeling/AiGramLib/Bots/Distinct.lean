import AiGramLib.Bots.Machine

/-!
# When no two active bots have one name

Within a run `copyBot` adds no second bot of a name, so duplicates can only come from a launch:
from two copies of one bot, or from a copy of a bot that is free in the bundle. The bundle of a
later version can bring about either. `names_distinct` shows that nothing else does: as long as
no update frees a bot whose paid copy is installed and no copy of a bot is made beside another
one of the same name (`keepsApart`), the names of the active bots are distinct.
-/

namespace AiGramLib.Bots

open Transition

/-- A failed operation that leaves an item at this place leaves nothing that `localBots` would
take up under another name than this one. -/
def leavesOnly (fs : FileSystem) (place : URL) (name : Option ChatBotId) : Outcome → Bool
  | .ok => true
  | .fails left =>
      let left := (fs.replace place.lastPathComponent left).localName place
      left == none || left == name

/-- No other directory is taken up by `localBots` under the name of the bot. -/
def onlyCopy (fs : FileSystem) (bot : ChatBot) : Bool :=
  fs.contentsOfDirectory.all fun url =>
    url == bot.destinationUrl || fs.localName url != some bot.name

/-- A file operation of `copyBot` makes no second copy of a name: a copy to an absent directory
is the only one of its bot, and failures leave parts of the directory that was there or was to
be copied. -/
def copyKeepsApart (fs : FileSystem) (bot : ChatBot) (stage : CopyStage) (outcome : Outcome) :
    Bool :=
  match stage with
  | .copy =>
      fs.checkResourceIsReachable bot.destinationUrl ||
        onlyCopy fs bot && leavesOnly fs bot.destinationUrl (some bot.name) outcome
  | .remove => leavesOnly fs bot.destinationUrl (fs.localName bot.destinationUrl) outcome
  | _ => true

/-- No bot that has a copy in the `chatbots` folder, with its own tags not free, is free in this
bundle. -/
def freesNoCopy (fs : FileSystem) (bundle : Entries) : Bool :=
  let updated := { fs with bundle }
  fs.contentsOfDirectory.all fun url =>
    updated.bundleUrls.all fun place =>
      (ChatBot.init updated place).all fun bot =>
        !bot.isFree || fs.localName url != some bot.name

/-- The condition on the steps of a run. -/
def keepsApart (s : State) : Action → Bool
  | .update bundle => freesNoCopy s.fs bundle
  | .step i outcome => s.calls[i]?.all fun call => copyKeepsApart s.fs call.bot call.stage outcome
  | _ => true

/-- The two folders keep the names of the bots apart. -/
structure FoldersApart (fs : FileSystem) : Prop where
  bundle : DistinctNames fs
  /-- A copy that `localBots` takes up is of a bot that the bundle does not have as free. -/
  paid : ∀ url place bot, url.folder = .chatbots → place ∈ fs.bundleUrls →
    ChatBot.init fs place = some bot → fs.localName url = some bot.name → bot.isFree = false
  /-- Two copies that `localBots` takes up have different names. -/
  copies : ∀ url place name, url.folder = .chatbots → place.folder = .chatbots →
    fs.localName url = some name → fs.localName place = some name → url = place

/-- So does the list of active bots, and the calls in progress are of bots that can be held. -/
structure Apart (s : State) : Prop where
  folders : FoldersApart s.fs
  calls : ∀ call ∈ s.calls, Held s.fs call.bot ∧ call.stage.Ready call.bot s.fs
  bots : (s.bots.map ChatBot.name).Nodup

section

variable {fs other : FileSystem} {url : URL} {bot : ChatBot}

theorem DistinctNames.congr_bundle (h : DistinctNames fs) (hbundle : other.bundle = fs.bundle) :
    DistinctNames other := by
  intro url hurl place hplace bot hbot other hother
  rw [bundle_urls_congr hbundle] at hurl hplace
  rw [init_bundle_congr hbundle (folder_of_mem_bundle_urls hurl)] at hbot
  rw [init_bundle_congr hbundle (folder_of_mem_bundle_urls hplace)] at hother
  exact h url hurl place hplace bot hbot other hother

/-- A folder in which `localBots` finds less keeps the names apart. -/
theorem FoldersApart.mono (h : FoldersApart fs) (hbundle : other.bundle = fs.bundle)
    (hnames : ∀ url name, url.folder = .chatbots → other.localName url = some name →
      fs.localName url = some name) : FoldersApart other where
  bundle := h.bundle.congr_bundle hbundle
  paid := by
    intro url place bot hurl hplace hinit hname
    rw [bundle_urls_congr hbundle] at hplace
    rw [init_bundle_congr hbundle (folder_of_mem_bundle_urls hplace)] at hinit
    exact h.paid url place bot hurl hplace hinit (hnames url _ hurl hname)
  copies := fun url place name hurl hplace hname hother =>
    h.copies url place name hurl hplace (hnames url _ hurl hname) (hnames place _ hplace hother)

theorem nodup_of_subperm {α : Type} {urls all : List α} (h : urls.Subperm all)
    (hall : all.Nodup) : urls.Nodup := by
  obtain ⟨listed, hperm, hsublist⟩ := h
  exact hperm.nodup_iff.mp (hall.sublist hsublist)

/-- Names are taken up once if no two of the listed addresses give the same one. -/
theorem nodup_taken_up {urls : List URL} {taken : URL → Option ChatBotId} (h : urls.Nodup)
    (hdistinct : ∀ url ∈ urls, ∀ place ∈ urls, ∀ name, taken url = some name →
      taken place = some name → url = place) : (urls.filterMap taken).Nodup := by
  rw [List.Nodup, List.pairwise_filterMap]
  refine h.imp_of_mem fun hurl hplace hne name hname other hother heq => ?_
  exact hne (hdistinct _ hurl _ hplace name hname (heq ▸ hother))

end

section

variable {bot : ChatBot} {fs : FileSystem} {stage : CopyStage} {outcome : Outcome}
  {effect : CopyEffect}

/-- A copied directory is taken up under the name of its bot, unless it is hidden. -/
theorem local_name_of_copy {other : FileSystem} (hheld : Held fs bot)
    (hbundle : bot.url.folder = .bundleBots) (hfree : bot.isFree = false)
    (hdirectory : other.directory bot.destinationUrl = fs.directory bot.url) :
    other.localName bot.destinationUrl = none ∨
      other.localName bot.destinationUrl = some bot.name := by
  obtain ⟨hcomponents, hext, hloaded⟩ := hheld
  have hname : bot.destinationUrl.lastPathComponent = bot.url.lastPathComponent :=
    ChatBot.installed_name_eq hcomponents (by rw [hext]; decide)
  have hinit := ChatBot.init_of_directory hname hdirectory (hloaded hbundle)
  cases hhidden : bot.destinationUrl.isHidden with
  | true => exact .inl (by simp [FileSystem.localName, hhidden])
  | false => exact .inr (local_name_eq_some.mpr ⟨hhidden, _, hinit, hfree, rfl⟩)

/-- What a failed operation leaves has the name it is allowed to have, or none. -/
theorem local_name_of_left {name : Option ChatBotId} {left : Option Directory}
    (h : leavesOnly fs bot.destinationUrl name (.fails left) = true) :
    (fs.replace bot.destinationUrl.lastPathComponent left).localName bot.destinationUrl = none ∨
      (fs.replace bot.destinationUrl.lastPathComponent left).localName bot.destinationUrl =
        name := by
  simpa [leavesOnly] using h

/-- What the destination of a call is taken up as after a step of it: nothing, what it was
before, or the only copy of the bot. -/
theorem copy_step_local_name (h : copyStep bot fs stage outcome = some effect)
    (hheld : Held fs bot) (hready : stage.Ready bot fs)
    (hkeeps : copyKeepsApart fs bot stage outcome = true) :
    effect.fs.localName bot.destinationUrl = none ∨
    effect.fs.localName bot.destinationUrl = fs.localName bot.destinationUrl ∨
    effect.fs.localName bot.destinationUrl = some bot.name ∧ onlyCopy fs bot = true ∧
      bot.url.folder = .bundleBots ∧ bot.isFree = false := by
  rcases copy_step_fs h with hfs | ⟨-, hcreate⟩ | ⟨rfl, hfs⟩ | ⟨rfl, hfs⟩
  · exact .inr (.inl (by rw [hfs]))
  · exact .inr (.inl (local_name_congr (FileSystem.directory_create hcreate _)))
  · rw [hfs]
    unfold FileSystem.removeItem
    split
    · cases outcome with
      | ok =>
          exact .inl (local_name_of_no_directory
            (FileSystem.directory_replace_self hready.2.2 bot.installedName none))
      | fails left => exact (local_name_of_left hkeeps).imp_right .inl
    · exact .inr (.inl rfl)
  · rw [hfs]
    unfold FileSystem.copyItem
    split
    · exact .inr (.inl rfl)
    · rename_i hnone
      simp only [copyKeepsApart, hnone, Bool.false_or, Bool.and_eq_true] at hkeeps
      split
      · exact .inr (.inl rfl)
      all_goals
        rename_i dir hdir
        -- an installed bot is copied to its own address, where there is nothing
        have hbundle : bot.url.folder = .bundleBots := by
          cases hfolder : bot.url.folder with
          | bundleBots => rfl
          | chatbots =>
              have hname := ChatBot.installed_name_eq hheld.1 (by rw [hheld.2.1]; decide)
              have hsame : bot.destinationUrl = bot.url := by
                rw [ChatBot.destinationUrl, hname, ← hfolder]
              simp [FileSystem.checkResourceIsReachable, hsame, hdir] at hnone
      · refine (local_name_of_copy hheld hbundle hready.1 ?_).imp_right
          fun hname => .inr ⟨hname, hkeeps.1, hbundle, hready.1⟩
        rw [hdir]
        exact FileSystem.directory_replace_self hready.2.2 bot.installedName (some dir)
      · exact (local_name_of_left hkeeps.2).imp_right
          fun hname => .inr ⟨hname, hkeeps.1, hbundle, hready.1⟩

theorem local_name_ne_of_only_copy (h : onlyCopy fs bot = true) {url : URL}
    (hfolder : url.folder = .chatbots) (hne : url ≠ bot.destinationUrl) :
    fs.localName url ≠ some bot.name := by
  intro hname
  have hother := List.all_eq_true.mp h url (mem_contents_of_local_name hfolder hname)
  simp [hne, hname] at hother

/-- A file operation that meets the condition keeps the folders apart. -/
theorem FoldersApart.step (h : FoldersApart fs)
    (hstep : copyStep bot fs stage outcome = some effect) (hheld : Held fs bot)
    (hready : stage.Ready bot fs) (hkeeps : copyKeepsApart fs bot stage outcome = true) :
    FoldersApart effect.fs := by
  have hbundle := copy_step_bundle hstep
  have hframe : ∀ url, url ≠ bot.destinationUrl →
      effect.fs.localName url = fs.localName url := fun url hne =>
    local_name_congr (copy_step_frame hstep hne)
  rcases copy_step_local_name hstep hheld hready hkeeps with
    hnone | hsame | ⟨hname, honly, hfolder, hfree⟩
  · refine h.mono hbundle fun url name _ hurl => ?_
    by_cases hdestination : url = bot.destinationUrl
    · rw [hdestination, hnone] at hurl
      cases hurl
    · exact hframe url hdestination ▸ hurl
  · refine h.mono hbundle fun url name _ hurl => ?_
    by_cases hdestination : url = bot.destinationUrl
    · rw [hdestination] at hurl ⊢
      exact hsame ▸ hurl
    · exact hframe url hdestination ▸ hurl
  · -- the new copy has the name of a bot that the bundle has as paid and that has no other copy
    have hown : bot.url ∈ fs.bundleUrls := FileSystem.mem_bundle_urls.mpr
      ⟨hfolder, ChatBot.directory_of_init (hheld.2.2 hfolder), hheld.2.1⟩
    constructor
    · exact h.bundle.congr_bundle hbundle
    · intro url place other hurl hplace hinit hnamed
      rw [bundle_urls_congr hbundle] at hplace
      rw [init_bundle_congr hbundle (folder_of_mem_bundle_urls hplace)] at hinit
      by_cases hdestination : url = bot.destinationUrl
      · rw [hdestination, hname] at hnamed
        have hsame := h.bundle _ hown place hplace _ (hheld.2.2 hfolder) _ hinit
          (Option.some.inj hnamed)
        rw [← hsame, hheld.2.2 hfolder] at hinit
        exact Option.some.inj hinit ▸ hfree
      · exact h.paid url place other hurl hplace hinit (hframe url hdestination ▸ hnamed)
    · intro url place name hurl hplace hnamed hother
      by_cases hdestination : url = bot.destinationUrl <;>
        by_cases hplaced : place = bot.destinationUrl
      · rw [hdestination, hplaced]
      · rw [hdestination, hname] at hnamed
        rw [hframe place hplaced, ← hnamed] at hother
        exact absurd hother (local_name_ne_of_only_copy honly hplace hplaced)
      · rw [hplaced, hname] at hother
        rw [hframe url hdestination, ← hother] at hnamed
        exact absurd hnamed (local_name_ne_of_only_copy honly hurl hdestination)
      · exact h.copies url place name hurl hplace (hframe url hdestination ▸ hnamed)
          (hframe place hplaced ▸ hother)

end

/-- Then no name is taken up twice, neither by one of the two lists of a launch nor by both. -/
theorem FoldersApart.nodup_names (h : FoldersApart fs) {bundleUrls localUrls : List URL}
    (hbundle : bundleUrls.Subperm fs.bundleUrls)
    (hlocal : localUrls.Subperm fs.contentsOfDirectory) :
    ((freeBots fs bundleUrls).map ChatBot.name ++ localUrls.filterMap fs.localName).Nodup := by
  have hfolder : ∀ url ∈ localUrls, url.folder = .chatbots := fun url hurl =>
    (FileSystem.mem_contents_of_directory.mp (hlocal.subset hurl)).1
  rw [freeBots, List.map_filterMap]
  refine List.nodup_append.mpr ⟨?_, ?_, ?_⟩
  · refine nodup_taken_up (nodup_of_subperm hbundle (nodup_bundle_urls fs)) ?_
    intro url hurl place hplace name hname hother
    simp only [Option.map_eq_some_iff, Option.filter_eq_some_iff] at hname hother
    obtain ⟨bot, ⟨hinit, -⟩, hbot⟩ := hname
    obtain ⟨other, ⟨hloaded, -⟩, hnamed⟩ := hother
    exact h.bundle url (hbundle.subset hurl) place (hbundle.subset hplace) bot hinit other hloaded
      (hbot.trans hnamed.symm)
  · exact nodup_taken_up (nodup_of_subperm hlocal (nodup_contents_of_directory fs))
      fun url hurl place hplace name =>
        h.copies url place name (hfolder url hurl) (hfolder place hplace)
  · rintro name hfree other hcopy rfl
    simp only [List.mem_filterMap, Option.map_eq_some_iff, Option.filter_eq_some_iff] at hfree
    obtain ⟨place, hplace, bot, ⟨hinit, hbot⟩, hname⟩ := hfree
    obtain ⟨url, hurl, hother⟩ := List.mem_filterMap.mp hcopy
    have hpaid := h.paid url place bot (hfolder url hurl) (hbundle.subset hplace) hinit
      (hname ▸ hother)
    rw [hpaid] at hbot
    cases hbot

variable {s t : State} {documentDirectory : Bool}

theorem Apart.update (h : Apart s) {bundle : Entries} (hkeeps : freesNoCopy s.fs bundle = true)
    (hnext : update s bundle = some t) : Apart t := by
  simp only [Bots.update, Option.ite_none_right_eq_some, Option.some.injEq] at hnext
  obtain ⟨hdistinct, rfl⟩ := hnext
  refine ⟨⟨hdistinct, ?_, ?_⟩, by simp [stop], by simp [stop]⟩
  · intro url place bot hurl hplace hinit hname
    rw [local_name_update s.fs bundle hurl] at hname
    have hbot := List.all_eq_true.mp (List.all_eq_true.mp hkeeps url
      (mem_contents_of_local_name hurl hname)) place hplace
    rw [hinit] at hbot
    simpa [hname] using hbot
  · intro url place name hurl hplace hname hother
    rw [local_name_update s.fs bundle hurl] at hname
    rw [local_name_update s.fs bundle hplace] at hother
    exact h.folders.copies url place name hurl hplace hname hother

theorem Apart.launch (h : Apart s) {outcome : Outcome} {bundleUrls localUrls : List URL}
    (hnext : launch s outcome bundleUrls localUrls = some t) : Apart t := by
  simp only [Bots.launch, Option.ite_none_right_eq_some, Option.some.injEq] at hnext
  obtain ⟨⟨hbundle, hlocal⟩, rfl⟩ := hnext
  have hname : (s.fs.createChatbots outcome).localName = s.fs.localName := by
    funext url
    exact local_name_congr (directory_create_chatbots s.fs outcome url)
  refine ⟨h.folders.mono (bundle_create_chatbots s.fs outcome) fun url _ _ => hname ▸ id,
    by simp [stop], ?_⟩
  have hvisible : ∀ url ∈ localUrls, url.isHidden = false := fun url hurl =>
    (FileSystem.mem_contents_of_directory.mp (hlocal.subset hurl)).2.2
  have hsublist := names_local_bots (s.fs.createChatbots outcome) hvisible
  rw [hname] at hsublist
  rw [List.map_append]
  rw [contents_create_chatbots] at hlocal
  exact (h.folders.nodup_names hbundle hlocal).sublist (hsublist.append_left _)

theorem Apart.step (h : Apart s) {i : Nat} {outcome : Outcome}
    (hkeeps : keepsApart s (.step i outcome) = true) (hnext : step s i outcome = some t) :
    Apart t := by
  obtain ⟨call, hcall, hnext⟩ := Option.bind_eq_some_iff.mp hnext
  obtain ⟨effect, heffect, hnext⟩ := Option.bind_eq_some_iff.mp hnext
  cases hnext
  have hbundle := copy_step_bundle heffect
  obtain ⟨hheld, hready⟩ := h.calls call (List.mem_of_getElem? hcall)
  rw [keepsApart, hcall] at hkeeps
  refine ⟨h.folders.step heffect hheld hready hkeeps, ?_, h.bots⟩
  intro other hother
  rcases List.mem_or_eq_of_mem_set hother with hold | rfl
  · obtain ⟨hotherHeld, hotherReady⟩ := h.calls other hold
    exact ⟨hotherHeld.congr_bundle hbundle, hotherReady.mono heffect⟩
  · exact ⟨hheld.congr_bundle hbundle, hready.step heffect⟩

/-- Every step that meets the condition keeps the names apart. -/
theorem Apart.next (h : Apart s) {action : Action} (hkeeps : keepsApart s action = true)
    (hnext : (machine documentDirectory).next s action = some t) : Apart t := by
  cases action with
  | update bundle => exact h.update hkeeps hnext
  | launch outcome bundleUrls localUrls => exact h.launch hnext
  | copyBot bot =>
      simp only [machine, copyBot, Option.ite_none_right_eq_some, Option.some.injEq] at hnext
      obtain ⟨⟨-, hheld⟩, rfl⟩ := hnext
      refine ⟨h.folders, fun call hcall => ?_, h.bots⟩
      rcases List.mem_append.mp hcall with hold | hnew
      · exact h.calls call hold
      · rw [List.mem_singleton.mp hnew]
        exact ⟨hheld, trivial⟩
  | step i outcome => exact h.step hkeeps hnext
  | runBlock =>
      simp only [machine, runBlock] at hnext
      split at hnext <;> cases hnext
      exact ⟨h.folders, h.calls, nodup_append_bot h.bots _⟩

theorem Apart.initial : Apart (.initial documentDirectory) where
  folders := {
    bundle := fun url hurl => by simp [State.initial, FileSystem.bundleUrls] at hurl
    paid := fun _ place _ _ hplace => by simp [State.initial, FileSystem.bundleUrls] at hplace
    copies := fun url _ _ hurl _ hname => by
      have hcontents := mem_contents_of_local_name hurl hname
      simp [State.initial, FileSystem.contentsOfDirectory] at hcontents }
  calls := by simp [State.initial]
  bots := by simp [State.initial]

/-- In every run that meets the condition, the names of the active bots are distinct. -/
theorem names_distinct (h : ((machine documentDirectory).restrict keepsApart).Reachable s) :
    (s.bots.map ChatBot.name).Nodup :=
  (h.restrict_induction (P := Apart) Apart.initial fun _ _ _ _ hapart hkeeps hnext =>
    hapart.next hkeeps hnext).bots

/-- Two paid bots are installed side by side and are still there after a relaunch. -/
theorem names_distinct_run :
    ∃ s : State, ((machine true).restrict keepsApart).Reachable s ∧
      s.bots.map ChatBot.name = ["a", "b"] ∧ (s.bots.map ChatBot.name).Nodup := by
  obtain ⟨s, hreach, hnames⟩ := ((machine true).restrict keepsApart).exists_reachable
    [.update (FileSystem.fresh ["a", "b"]).bundle, .launch .ok [] [],
      .copyBot (.named "a"), .copyBot (.named "b"),
      .step 0 .ok, .step 1 .ok, .step 0 .ok, .step 1 .ok, .step 0 .ok, .step 1 .ok,
      .step 0 .ok, .step 1 .ok, .step 0 .ok, .step 1 .ok, .runBlock, .runBlock,
      .launch .ok [] [⟨.chatbots, "a.chatbot"⟩, ⟨.chatbots, "b.chatbot"⟩]]
    (fun s => s.bots.map ChatBot.name = ["a", "b"]) (by decide)
  exact ⟨s, hreach, hnames, names_distinct hreach⟩

/-- A paid bot is installed, and the next version has it as free: after the update it is there
from the bundle and from the documents, where its copy still has the old tags. -/
theorem names_not_distinct :
    ∃ s : State, (machine true).Reachable s ∧ ¬ (s.bots.map ChatBot.name).Nodup :=
  (machine true).exists_reachable
    [.update (FileSystem.fresh ["a"]).bundle, .launch .ok [] [], .copyBot (.named "a"),
      .step 0 .ok, .step 0 .ok, .step 0 .ok, .step 0 .ok, .step 0 .ok, .runBlock,
      .update [⟨"a.chatbot", (Directory.named "a").insert "info.json"
        ⟨some { (ChatBot.named "a").info with tags := [.free] }, none, none⟩⟩].toAList,
      .launch .ok [⟨.bundleBots, "a.chatbot"⟩] [⟨.chatbots, "a.chatbot"⟩]]
    (fun s => ¬ (s.bots.map ChatBot.name).Nodup) (by decide)

end AiGramLib.Bots
