import AiGramLib.Bots.Relaunch
import AiGramLib.Bots.Machine

/-!
# The list of active bots and the folders keep in step

The list of active bots is in memory and their directories are on disk: `copyBot` changes the one
in its main block and the other before, with any number of other calls in between. When everything
has run, a relaunch finds the names that are in the list, neither more nor fewer
(`relaunch_changes_nothing`), unless a file operation has failed over a directory, or a copy has
been replaced by one of another name or made where it is not looked for (`keepsStep`).
-/

namespace AiGramLib.Bots

open Transition

/-- A file operation of `copyBot` after which the folder has what the list is going to have: it
removes a copy with the name of its own bot only, and fails over a directory only if what it leaves
has the name that was there. -/
def copyKeepsStep (fs : FileSystem) (bot : ChatBot) (stage : CopyStage) (outcome : Outcome) :
    Bool :=
  let place := bot.destinationUrl
  match stage with
  | .remove =>
      (fs.localName place).all (· == bot.name) &&
        (outcome.leftover.isNone ||
          (fs.replace place.lastPathComponent outcome.leftover).localName place ==
            fs.localName place)
  | .copy => fs.checkResourceIsReachable place || outcome.isOk
  | .reload => !fs.checkResourceIsReachable place || outcome.isOk
  | _ => true

/-- The steps that keep list and folders in step. A launch can read all directories, and copies are
made of bots of the bundle, to places that are not hidden. -/
def keepsStep (s : State) : Action → Bool
  | .launch _ bundleUrls localUrls =>
      decide (s.fs.bundleUrls ⊆ bundleUrls) && decide (s.fs.contentsOfDirectory ⊆ localUrls)
  | .copyBot bot =>
      bot.isFree || bot.url.folder == .bundleBots && !bot.destinationUrl.isHidden
  | .step i outcome =>
      s.calls[i]?.all fun call => copyKeepsStep s.fs call.bot call.stage outcome
  | _ => true

/-- A bot of this name is active, or is going to be when the main blocks have run. -/
def State.Lists (s : State) (name : ChatBotId) : Prop :=
  ∃ bot ∈ s.bots ++ s.main, bot.name = name

/-- A launch that can read all directories takes up a bot of this name. -/
def Finds (fs : FileSystem) (name : ChatBotId) : Prop :=
  (∃ url ∈ fs.bundleUrls, ∃ bot, ChatBot.init fs url = some bot ∧ bot.isFree = true ∧
    bot.name = name) ∨
  ∃ url, url.folder = .chatbots ∧ fs.localName url = some name

/-- What there is at the destination of a call after a step of it, and what the step has dispatched.
The steps without a say in either are one case. -/
inductive Moves (fs : FileSystem) (bot : ChatBot) (effect : CopyEffect) : CopyStage → Prop where
  | passed {stage : CopyStage}
      (hsame : effect.fs.directory bot.destinationUrl = fs.directory bot.destinationUrl)
      (hnew : effect.newBot = none) (hreload : effect.stage ≠ .reload)
      (hcopy : stage = .copy → (fs.directory bot.destinationUrl).isSome = true)
      (hreloaded : stage = .reload → fs.directory bot.destinationUrl = none) :
      Moves fs bot effect stage
  | removed (hnone : effect.fs.directory bot.destinationUrl = none)
      (hname : ∀ name, fs.localName bot.destinationUrl = some name → name = bot.name)
      (hnew : effect.newBot = none) (hstage : effect.stage = .copy) : Moves fs bot effect .remove
  | left (hsome : (fs.directory bot.destinationUrl).isSome = true)
      (hsame : effect.fs.localName bot.destinationUrl = fs.localName bot.destinationUrl)
      (hnew : effect.newBot = none) (hstage : effect.stage = .copy) : Moves fs bot effect .remove
  | copied (hnone : fs.directory bot.destinationUrl = none)
      (hname : effect.fs.localName bot.destinationUrl = some bot.name)
      (hnew : effect.newBot = none) (hstage : effect.stage = .reload) : Moves fs bot effect .copy
  | reloaded (newBot : ChatBot) (hfs : effect.fs = fs)
      (hname : fs.localName bot.destinationUrl = some bot.name)
      (hnew : effect.newBot = some newBot) (hnewName : newBot.name = bot.name)
      (hreload : effect.stage ≠ .reload) : Moves fs bot effect .reload

section

variable {fs : FileSystem} {bot : ChatBot} {stage : CopyStage} {outcome : Outcome}
  {effect : CopyEffect}

theorem moves_of_remove (h : copyStep bot fs .remove outcome = some effect)
    (hready : CopyStage.remove.Ready bot fs)
    (hkeeps : copyKeepsStep fs bot .remove outcome = true) : Moves fs bot effect .remove := by
  obtain rfl := Option.some.inj h
  have hremoved : (fs.removeItem bot.destinationUrl outcome).directory bot.destinationUrl =
      (fs.directory bot.destinationUrl).bind fun _ => outcome.leftover :=
    FileSystem.directory_remove_self outcome rfl hready.2.2
  simp only [copyKeepsStep, Bool.and_eq_true, Bool.or_eq_true, Option.isNone_iff_eq_none] at hkeeps
  obtain ⟨hown, hleft⟩ := hkeeps
  have hname : ∀ name, fs.localName bot.destinationUrl = some name → name = bot.name :=
    fun name hname => by simpa [hname] using hown
  cases hdirectory : fs.directory bot.destinationUrl with
  | none =>
      rw [hdirectory] at hremoved
      exact .removed hremoved hname rfl rfl
  | some dir =>
      rw [hdirectory] at hremoved
      rcases hleft with hnone | hsame
      · exact .removed (hremoved.trans hnone) hname rfl rfl
      · refine .left (by rw [hdirectory]; rfl) ?_ rfl rfl
        rw [← beq_iff_eq.mp hsame]
        exact local_name_congr (hremoved.trans
          (FileSystem.directory_replace_self hready.2.2 bot.installedName outcome.leftover).symm)

theorem moves_of_copy (h : copyStep bot fs .copy outcome = some effect)
    (hready : CopyStage.copy.Ready bot fs) (hinstallable : Installable fs bot)
    (hvisible : bot.destinationUrl.isHidden = false)
    (hkeeps : copyKeepsStep fs bot .copy outcome = true) : Moves fs bot effect .copy := by
  cases hdirectory : fs.directory bot.destinationUrl with
  | some dir =>
      have hreachable : fs.checkResourceIsReachable bot.destinationUrl = true := by
        simp [FileSystem.checkResourceIsReachable, hdirectory]
      obtain rfl : { fs, stage := .returned false } = effect := by
        simpa [copyStep, FileSystem.copyItem, hreachable] using h
      exact .passed rfl rfl (by simp) (fun _ => by rw [hdirectory]; rfl) (by simp)
  | none =>
      have hreachable : fs.checkResourceIsReachable bot.destinationUrl = false := by
        simp [FileSystem.checkResourceIsReachable, hdirectory]
      obtain rfl : outcome = .ok :=
        Outcome.eq_ok (by simpa [copyKeepsStep, hreachable] using hkeeps)
      obtain ⟨dir, hsource⟩ := Option.isSome_iff_exists.mp hinstallable.directory
      obtain rfl : { fs := fs.replace bot.destinationUrl.lastPathComponent (some dir)
                     stage := .reload } = effect := by
        simpa [copyStep, FileSystem.copyItem, hreachable, hsource, hready.2.2] using h
      refine .copied hdirectory ?_ rfl rfl
      have hcopy := FileSystem.directory_replace_self hready.2.2 bot.installedName (some dir)
      exact local_name_eq_some.mpr ⟨hvisible, bot.installedCopy,
        hinstallable.init_copy (hcopy.trans hsource.symm), hinstallable.paid, rfl⟩

theorem moves_of_reload (h : copyStep bot fs .reload outcome = some effect)
    (hplaced : fs.directory bot.destinationUrl = none ∨
      fs.localName bot.destinationUrl = some bot.name)
    (hkeeps : copyKeepsStep fs bot .reload outcome = true) : Moves fs bot effect .reload := by
  rcases hplaced with hnone | hname
  · have hfails : ChatBot.init fs bot.destinationUrl = none := by
      simp [ChatBot.init, hnone]
    obtain rfl : { fs, stage := .returned false } = effect := by
      simpa [copyStep, hfails] using h
    exact .passed rfl rfl (by simp) (by simp) (fun _ => hnone)
  · obtain ⟨-, newBot, hinit, -, hnewName⟩ := local_name_eq_some.mp hname
    have hreachable : fs.checkResourceIsReachable bot.destinationUrl = true :=
      ChatBot.directory_of_init hinit
    obtain rfl : outcome = .ok := Outcome.eq_ok (by simpa [copyKeepsStep, hreachable] using hkeeps)
    obtain rfl : { fs, stage := .returned true, newBot := some newBot } = effect := by
      simpa [copyStep, hinit] using h
    exact .reloaded newBot rfl hname rfl hnewName (by simp)

/-- A step that keeps list and folders in step is one of these. -/
theorem copy_step_moves (h : copyStep bot fs stage outcome = some effect)
    (hready : stage.Ready bot fs)
    (hpaid : bot.isFree = false → Installable fs bot ∧ bot.destinationUrl.isHidden = false)
    (hplaced : stage = .reload → fs.directory bot.destinationUrl = none ∨
      fs.localName bot.destinationUrl = some bot.name)
    (hkeeps : copyKeepsStep fs bot stage outcome = true) : Moves fs bot effect stage := by
  cases stage with
  | guards =>
      simp only [copyStep] at h
      split at h
      · cases h; exact .passed rfl rfl (by simp) (by simp) (by simp)
      · split at h <;> cases h <;> exact .passed rfl rfl (by simp) (by simp) (by simp)
  | createFolder =>
      simp only [copyStep] at h
      split at h
      · cases h; exact .passed rfl rfl (by simp) (by simp) (by simp)
      · split at h
        · rename_i created hcreate
          cases h
          exact .passed (FileSystem.directory_create hcreate _) rfl (by simp) (by simp) (by simp)
        · cases h; exact .passed rfl rfl (by simp) (by simp) (by simp)
  | probe =>
      simp only [copyStep] at h
      split at h <;> cases h <;> exact .passed rfl rfl (by simp) (by simp) (by simp)
  | remove => exact moves_of_remove h hready hkeeps
  | copy =>
      obtain ⟨hinstallable, hvisible⟩ := hpaid hready.1
      exact moves_of_copy h hready hinstallable hvisible hkeeps
  | reload => exact moves_of_reload h (hplaced rfl) hkeeps
  | returned => cases h

namespace Moves

variable {name : ChatBotId}

/-- What is taken up after the step has just been copied, or was taken up before; then a reload has
dispatched it. -/
theorem found (h : Moves fs bot effect stage)
    (hname : effect.fs.localName bot.destinationUrl = some name) : effect.stage = .reload ∨
      fs.localName bot.destinationUrl = some name ∧
        (stage = .reload → ∃ newBot, effect.newBot = some newBot ∧ newBot.name = name) := by
  cases h with
  | passed hsame hnew hreload hcopy hreloaded =>
      have hbefore := local_name_congr hsame ▸ hname
      refine .inr ⟨hbefore, fun hstage => ?_⟩
      rw [local_name_of_no_directory (hreloaded hstage)] at hbefore
      cases hbefore
  | removed hnone =>
      rw [local_name_of_no_directory hnone] at hname
      cases hname
  | left hsome hsame => exact .inr ⟨hsame ▸ hname, by simp⟩
  | copied hnone hcopied hnew hstage => exact .inl hstage
  | reloaded newBot hfs hown hnew hnewName =>
      rw [hfs] at hname
      have hsame : bot.name = name := Option.some.inj (hown.symm.trans hname)
      exact .inr ⟨hname, fun _ => ⟨newBot, hnew, hnewName.trans hsame⟩⟩

/-- What was taken up before is still, or the call that has removed it is about to copy it. -/
theorem lost (h : Moves fs bot effect stage)
    (hname : fs.localName bot.destinationUrl = some name) :
    effect.fs.localName bot.destinationUrl = some name ∨
      effect.stage = .copy ∧ bot.name = name ∧
        effect.fs.directory bot.destinationUrl = none := by
  cases h with
  | passed hsame => exact .inl ((local_name_congr hsame).trans hname)
  | removed hnone hown hnew hstage => exact .inr ⟨hstage, (hown name hname).symm, hnone⟩
  | left hsome hsame => exact .inl (hsame.trans hname)
  | copied hnone =>
      rw [local_name_of_no_directory hnone] at hname
      cases hname
  | reloaded newBot hfs => exact .inl (hfs ▸ hname)

/-- A place without a directory stays one until a copy is made. -/
theorem awaited (h : Moves fs bot effect stage)
    (hnone : fs.directory bot.destinationUrl = none) :
    stage = .copy ∧ effect.fs.localName bot.destinationUrl = some bot.name ∨
      stage ≠ .copy ∧ effect.fs.directory bot.destinationUrl = none := by
  cases h with
  | passed hsame hnew hreload hcopy =>
      refine .inr ⟨fun hstage => ?_, hsame.trans hnone⟩
      simpa [hnone] using hcopy hstage
  | removed hremoved => exact .inr ⟨by simp, hremoved⟩
  | left hsome => simp [hnone] at hsome
  | copied _ hcopied => exact .inl ⟨rfl, hcopied⟩
  | reloaded newBot hfs hown =>
      rw [local_name_of_no_directory hnone] at hown
      cases hown

/-- A copy that waits for its reload stays what it is, or is removed. -/
theorem placed (h : Moves fs bot effect stage) (hown : stage = .copy → bot.name = name)
    (hplaced : fs.directory bot.destinationUrl = none ∨
      fs.localName bot.destinationUrl = some name) :
    effect.fs.directory bot.destinationUrl = none ∨
      effect.fs.localName bot.destinationUrl = some name := by
  rcases hplaced with hnone | hname
  · rcases h.awaited hnone with ⟨hstage, hcopied⟩ | ⟨-, hstill⟩
    · exact .inr (hown hstage ▸ hcopied)
    · exact .inl hstill
  · exact (h.lost hname).symm.imp_left fun hlost => hlost.2.2

theorem reloads (h : Moves fs bot effect stage) (hreload : effect.stage = .reload) :
    effect.fs.localName bot.destinationUrl = some bot.name := by
  cases h with
  | passed hsame hnew hnot => exact absurd hreload hnot
  | removed hnone hown hnew hstage => simp [hstage] at hreload
  | left hsome hsame hnew hstage => simp [hstage] at hreload
  | copied hnone hcopied => exact hcopied
  | reloaded newBot hfs hown hnew hnewName hnot => exact absurd hreload hnot

/-- The bot that a step has dispatched is in its place. -/
theorem dispatched (h : Moves fs bot effect stage) {newBot : ChatBot}
    (hnew : effect.newBot = some newBot) : newBot.name = bot.name ∧
      effect.fs.localName bot.destinationUrl = some bot.name := by
  cases h with
  | passed _ hnone => simp [hnone] at hnew
  | removed _ _ hnone => simp [hnone] at hnew
  | left _ _ hnone => simp [hnone] at hnew
  | copied _ _ hnone => simp [hnone] at hnew
  | reloaded other hfs hname hother hotherName =>
      obtain rfl := Option.some.inj (hother.symm.trans hnew)
      exact ⟨hotherName, hfs ▸ hname⟩

end Moves

end

/-- List and folders agree up to what the calls in progress are about to do. -/
structure InStep (s : State) : Prop where
  folder : s.fs.chatbots.isSome = true → s.fs.documentDirectory = true
  calls : ∀ call ∈ s.calls, call.stage.Ready call.bot s.fs ∧ (call.bot.isFree = false →
    Installable s.fs call.bot ∧ call.bot.destinationUrl.isHidden = false)
  placed : ∀ call ∈ s.calls, call.stage = .reload →
    s.fs.directory call.bot.destinationUrl = none ∨
      s.fs.localName call.bot.destinationUrl = some call.bot.name
  free : s.running = true → ∀ url ∈ s.fs.bundleUrls, ∀ bot, ChatBot.init s.fs url = some bot →
    bot.isFree = true → s.Lists bot.name
  /-- A copy that is not in the list is about to be reloaded. -/
  copies : s.running = true → ∀ url name, url.folder = .chatbots →
    s.fs.localName url = some name → s.Lists name ∨
      ∃ call ∈ s.calls, call.stage = .reload ∧ call.bot.destinationUrl = url
  /-- A bot in the list that has no directory is about to be copied again. -/
  listed : ∀ name, s.Lists name → Finds s.fs name ∨
    ∃ call ∈ s.calls, call.stage = .copy ∧ call.bot.name = name ∧
      s.fs.directory call.bot.destinationUrl = none

variable {s t : State} {name : ChatBotId}

theorem State.Lists.mono (h : s.Lists name) (hbots : s.bots ++ s.main ⊆ t.bots ++ t.main) :
    t.Lists name := by
  obtain ⟨bot, hbot, hname⟩ := h
  exact ⟨bot, hbots hbot, hname⟩

/-- The state after a file operation. -/
def stepped (s : State) (i : Nat) (call : Call) (effect : CopyEffect) : State :=
  { s with
    fs := effect.fs
    calls := s.calls.set i { call with stage := effect.stage }
    main := s.main ++ effect.newBot.toList }

section

variable {i : Nat} {call : Call} {outcome : Outcome} {effect : CopyEffect}

/-- Another call stays where it is. -/
theorem mem_calls_stepped {other : Call} (hcall : s.calls[i]? = some call)
    (hother : other ∈ s.calls) : other ∈ (stepped s i call effect).calls ∨ other = call :=
  mem_set_or_eq hother hcall _

theorem moved_mem_calls (hcall : s.calls[i]? = some call) :
    { call with stage := effect.stage } ∈ (stepped s i call effect).calls :=
  List.mem_of_getElem? (List.getElem?_set_self (List.getElem?_eq_some_iff.mp hcall).1)

theorem lists_stepped (h : s.Lists name) : (stepped s i call effect).Lists name :=
  h.mono (List.append_subset.mpr ⟨List.subset_append_left _ _,
    List.subset_append_of_subset_right _ (List.subset_append_left s.main _)⟩)

/-- The copies in progress at one place are of bots of one name. -/
theorem InStep.name_eq (h : InStep s) {other : Call} (hcall : call ∈ s.calls)
    (hother : other ∈ s.calls) (hcopy : call.stage = .copy)
    (hpoint : other.stage = .copy ∨ other.stage = .reload)
    (hsame : other.bot.destinationUrl = call.bot.destinationUrl) :
    call.bot.name = other.bot.name := by
  obtain ⟨hready, hpaid⟩ := h.calls call hcall
  obtain ⟨hotherReady, hotherPaid⟩ := h.calls other hother
  rw [hcopy] at hready
  have hfree : other.bot.isFree = false := by
    rcases hpoint with hpoint | hpoint <;> rw [hpoint] at hotherReady <;> exact hotherReady.1
  exact ((hpaid hready.1).1.name_eq (hotherPaid hfree).1 hsame).symm

variable (h : InStep s) (hcall : s.calls[i]? = some call)
  (hstep : copyStep call.bot s.fs call.stage outcome = some effect)
  (hmoves : Moves s.fs call.bot effect call.stage)

include h hcall hstep

theorem calls_stepped : ∀ other ∈ (stepped s i call effect).calls,
    other.stage.Ready other.bot effect.fs ∧ (other.bot.isFree = false →
      Installable effect.fs other.bot ∧ other.bot.destinationUrl.isHidden = false) := by
  intro other hother
  have hbundle := copy_step_bundle hstep
  rcases List.mem_or_eq_of_mem_set hother with hold | rfl
  · obtain ⟨hready, hpaid⟩ := h.calls other hold
    exact ⟨hready.mono hstep, fun hfree => ⟨(hpaid hfree).1.congr_bundle hbundle, (hpaid hfree).2⟩⟩
  · obtain ⟨hready, hpaid⟩ := h.calls call (List.mem_of_getElem? hcall)
    exact ⟨hready.step hstep, fun hfree => ⟨(hpaid hfree).1.congr_bundle hbundle, (hpaid hfree).2⟩⟩

include hmoves

theorem placed_stepped : ∀ other ∈ (stepped s i call effect).calls, other.stage = .reload →
    effect.fs.directory other.bot.destinationUrl = none ∨
      effect.fs.localName other.bot.destinationUrl = some other.bot.name := by
  intro other hother hreload
  rcases List.mem_or_eq_of_mem_set hother with hold | rfl
  · have hplaced := h.placed other hold hreload
    by_cases hsame : other.bot.destinationUrl = call.bot.destinationUrl
    · rw [hsame] at hplaced ⊢
      refine hmoves.placed (fun hcopy => ?_) hplaced
      exact h.name_eq (List.mem_of_getElem? hcall) hold hcopy (.inr hreload) hsame
    · rw [copy_step_frame hstep hsame, local_name_congr (copy_step_frame hstep hsame)]
      exact hplaced
  · exact .inr (hmoves.reloads hreload)

theorem copies_stepped (hrunning : s.running = true) {url : URL} (hfolder : url.folder = .chatbots)
    (hname : effect.fs.localName url = some name) : (stepped s i call effect).Lists name ∨
      ∃ other ∈ (stepped s i call effect).calls,
        other.stage = .reload ∧ other.bot.destinationUrl = url := by
  -- a copy that is listed or waits for its reload goes on doing so, but for the reload of this call
  have hkept : s.fs.localName url = some name →
      (url = call.bot.destinationUrl → call.stage = .reload →
        ∃ newBot, effect.newBot = some newBot ∧ newBot.name = name) →
      (stepped s i call effect).Lists name ∨ ∃ other ∈ (stepped s i call effect).calls,
        other.stage = .reload ∧ other.bot.destinationUrl = url := by
    intro hbefore hreloaded
    rcases h.copies hrunning url name hfolder hbefore with hlists | ⟨other, hother, hpoint, hplace⟩
    · exact .inl (lists_stepped hlists)
    · rcases mem_calls_stepped hcall hother with hkept | rfl
      · exact .inr ⟨other, hkept, hpoint, hplace⟩
      · obtain ⟨newBot, hnew, hnewName⟩ := hreloaded hplace.symm hpoint
        exact .inl ⟨newBot, by simp [stepped, hnew], hnewName⟩
  by_cases hsame : url = call.bot.destinationUrl
  · subst hsame
    rcases hmoves.found hname with hreload | ⟨hbefore, hreloaded⟩
    · exact .inr ⟨_, moved_mem_calls hcall, hreload, rfl⟩
    · exact hkept hbefore fun _ => hreloaded
  · exact hkept (local_name_congr (copy_step_frame hstep hsame) ▸ hname)
      fun hplace => absurd hplace hsame

theorem listed_stepped (hname : (stepped s i call effect).Lists name) :
    Finds effect.fs name ∨ ∃ other ∈ (stepped s i call effect).calls, other.stage = .copy ∧
      other.bot.name = name ∧ effect.fs.directory other.bot.destinationUrl = none := by
  have hbundle := copy_step_bundle hstep
  obtain ⟨bot, hbot, hnamed⟩ := hname
  rw [stepped, ← List.append_assoc, List.mem_append, Option.mem_toList] at hbot
  rcases hbot with hold | hnew
  · rcases h.listed name ⟨bot, hold, hnamed⟩ with
      (⟨url, hurl, free, hinit, hfree⟩ | ⟨url, hfolder, hfound⟩) |
        ⟨other, hother, hcopy, hotherName, hnone⟩
    · refine .inl (.inl ⟨url, by rwa [bundle_urls_congr hbundle], free, ?_, hfree⟩)
      rwa [init_bundle_congr hbundle (folder_of_mem_bundle_urls hurl)]
    · by_cases hsame : url = call.bot.destinationUrl
      · subst hsame
        rcases hmoves.lost hfound with hstill | ⟨hcopy, hownName, hnone⟩
        · exact .inl (.inr ⟨_, hfolder, hstill⟩)
        · exact .inr ⟨_, moved_mem_calls hcall, hcopy, hownName, hnone⟩
      · have hstill := local_name_congr (copy_step_frame hstep hsame)
        exact .inl (.inr ⟨url, hfolder, hstill.trans hfound⟩)
    · by_cases hsame : other.bot.destinationUrl = call.bot.destinationUrl
      · rw [hsame] at hnone
        rcases hmoves.awaited hnone with ⟨hstage, hcopied⟩ | ⟨hstage, hstill⟩
        · refine .inl (.inr ⟨call.bot.destinationUrl, rfl, hcopied.trans (congrArg some ?_)⟩)
          exact (h.name_eq (List.mem_of_getElem? hcall) hother hstage (.inl hcopy) hsame).trans
            hotherName
        · rcases mem_calls_stepped hcall hother with hkept | rfl
          · exact .inr ⟨other, hkept, hcopy, hotherName, hsame ▸ hstill⟩
          · exact absurd hcopy hstage
      · rcases mem_calls_stepped hcall hother with hkept | rfl
        · exact .inr ⟨other, hkept, hcopy, hotherName, (copy_step_frame hstep hsame).trans hnone⟩
        · exact absurd rfl hsame
  · obtain ⟨hnewName, hplaced⟩ := hmoves.dispatched hnew
    exact .inl (.inr ⟨call.bot.destinationUrl, rfl, by rw [hplaced, ← hnewName, hnamed]⟩)

/-- A file operation that keeps list and folders in step. -/
theorem InStep.stepped : InStep (stepped s i call effect) where
  folder := by
    intro hfolder
    rw [Bots.stepped, copy_step_document_directory hstep]
    by_cases hbefore : s.fs.chatbots.isSome = true
    · exact h.folder hbefore
    · -- the folder is created only where there is a document directory
      have hready := (h.calls call (List.mem_of_getElem? hcall)).1
      rcases copy_step_fs hstep with hfs | ⟨-, hcreate⟩ | ⟨hstage, -⟩ | ⟨hstage, -⟩
      · exact absurd (hfs ▸ hfolder) hbefore
      · cases hpoint : call.stage with
        | guards =>
            rw [hpoint] at hstep
            simp only [copyStep] at hstep
            repeat' split at hstep
            all_goals cases hstep; exact absurd hfolder hbefore
        | returned copied =>
            rw [hpoint] at hstep
            cases hstep
        | createFolder => exact (hpoint ▸ hready).2
        | _ => exact (hpoint ▸ hready).2.1
      · exact (hstage ▸ hready).2.1
      · exact (hstage ▸ hready).2.1
  calls := calls_stepped h hcall hstep
  placed := placed_stepped h hcall hstep hmoves
  free := by
    intro hrunning url hurl bot hinit hfree
    have hbundle := copy_step_bundle hstep
    replace hurl : url ∈ s.fs.bundleUrls := bundle_urls_congr hbundle ▸ hurl
    replace hinit : ChatBot.init s.fs url = some bot :=
      init_bundle_congr hbundle (folder_of_mem_bundle_urls hurl) ▸ hinit
    exact lists_stepped (h.free hrunning url hurl bot hinit hfree)
  copies := fun hrunning _ _ hfolder hname =>
    copies_stepped h hcall hstep hmoves hrunning hfolder hname
  listed := fun _ hname => listed_stepped h hcall hstep hmoves hname

end

theorem InStep.step (h : InStep s) {i : Nat} {outcome : Outcome}
    (hkeeps : keepsStep s (.step i outcome) = true) (hnext : step s i outcome = some t) :
    InStep t := by
  obtain ⟨call, hcall, hnext⟩ := Option.bind_eq_some_iff.mp hnext
  obtain ⟨effect, hstep, hnext⟩ := Option.bind_eq_some_iff.mp hnext
  cases hnext
  rw [keepsStep, hcall] at hkeeps
  have hmem := List.mem_of_getElem? hcall
  obtain ⟨hready, hpaid⟩ := h.calls call hmem
  exact h.stepped hcall hstep
    (copy_step_moves hstep hready hpaid (h.placed call hmem) hkeeps)

/-- Where launches can read all directories, a launch takes up what it finds. -/
theorem InStep.launch (h : InStep s) {outcome : Outcome} {bundleUrls localUrls : List URL}
    (hkeeps : keepsStep s (.launch outcome bundleUrls localUrls) = true)
    (hnext : launch s outcome bundleUrls localUrls = some t) : InStep t := by
  simp only [keepsStep, Bool.and_eq_true, decide_eq_true_eq] at hkeeps
  simp only [Bots.launch, Option.ite_none_right_eq_some, Option.some.injEq] at hnext
  obtain ⟨⟨hbundle, hlocal⟩, rfl⟩ := hnext
  have hcreated := bundle_create_chatbots s.fs outcome
  have hfolder : (s.fs.createChatbots outcome).chatbots.isSome = true →
      (s.fs.createChatbots outcome).documentDirectory = true := by
    rw [document_directory_create_chatbots]
    intro hsome
    unfold FileSystem.createChatbots at hsome
    split at hsome
    · simp_all
    · exact h.folder hsome
  refine ⟨hfolder, by simp [stop], by simp [stop], ?_, ?_, ?_⟩
  · intro _ url hurl bot hinit hfree
    replace hurl : url ∈ s.fs.bundleUrls := bundle_urls_congr hcreated ▸ hurl
    replace hinit : ChatBot.init s.fs url = some bot :=
      init_bundle_congr hcreated (folder_of_mem_bundle_urls hurl) ▸ hinit
    refine ⟨bot, List.mem_append_left _ (List.mem_append_left _ ?_), rfl⟩
    exact List.mem_filterMap.mpr ⟨url, hkeeps.1 hurl, by simp [hinit, hfree]⟩
  · intro _ url name hchatbots hname
    have hcontents := mem_contents_of_local_name hchatbots hname
    obtain ⟨-, bot, hinit, hfree, rfl⟩ := local_name_eq_some.mp hname
    rw [contents_create_chatbots] at hcontents
    have hsome : (s.fs.createChatbots outcome).chatbots.isSome = true := by
      have hdirectory := ChatBot.directory_of_init hinit
      simp only [FileSystem.directory, hchatbots] at hdirectory
      exact Option.isSome_of_isSome_bind hdirectory
    refine .inl ⟨bot, List.mem_append_left _ (List.mem_append_right _ ?_), rfl⟩
    exact mem_local_bots.mpr ⟨hfolder hsome, url, hkeeps.2 hcontents, hinit, hfree⟩
  · rintro name ⟨bot, hbot, rfl⟩
    refine .inl ?_
    simp only [stop, List.append_nil, List.mem_append] at hbot
    rcases hbot with hfree | hcopy
    · obtain ⟨url, hurl, hfound⟩ := List.mem_filterMap.mp hfree
      obtain ⟨hinit, hfree⟩ := Option.filter_eq_some_iff.mp hfound
      have hlisted := hbundle.subset hurl
      refine .inl ⟨url, by rwa [bundle_urls_congr hcreated], bot, ?_, hfree, rfl⟩
      rwa [init_bundle_congr hcreated (folder_of_mem_bundle_urls hlisted)]
    · obtain ⟨-, url, hurl, hinit, hfree⟩ := mem_local_bots.mp hcopy
      obtain ⟨hchatbots, -, hvisible⟩ :=
        FileSystem.mem_contents_of_directory.mp (hlocal.subset hurl)
      exact .inr ⟨url, hchatbots, local_name_eq_some.mpr ⟨hvisible, bot, hinit, hfree, rfl⟩⟩

/-- A main block leaves the names of the list and of the blocks. -/
theorem lists_run_block {newBot : ChatBot} {rest : List ChatBot} (hmain : s.main = newBot :: rest) :
    State.Lists { s with bots := appendBot s.bots newBot, main := rest } name ↔ s.Lists name := by
  obtain ⟨hbefore, hadded⟩ := prefix_append_bot s.bots newBot
  have hmem : ∀ bot ∈ appendBot s.bots newBot, bot ∈ s.bots ∨ bot = newBot := by
    intro bot hbot
    unfold appendBot at hbot
    split at hbot
    · exact .inl hbot
    · simpa using hbot
  constructor
  · rintro ⟨bot, hbot, hname⟩
    rcases List.mem_append.mp hbot with hbot | hrest
    · rcases hmem bot hbot with hold | rfl
      · exact ⟨bot, List.mem_append_left _ hold, hname⟩
      · exact ⟨bot, by simp [hmain], hname⟩
    · exact ⟨bot, by simp [hmain, hrest], hname⟩
  · rintro ⟨bot, hbot, hname⟩
    rw [hmain] at hbot
    rcases List.mem_append.mp hbot with hold | hblock
    · exact ⟨bot, List.mem_append_left _ (hbefore.subset hold), hname⟩
    · rcases List.mem_cons.mp hblock with rfl | hrest
      · obtain ⟨added, hbot, hsame⟩ := hadded
        exact ⟨added, List.mem_append_left _ hbot, hsame.trans hname⟩
      · exact ⟨bot, List.mem_append_right _ hrest, hname⟩

variable {documentDirectory : Bool}

theorem InStep.initial : InStep (.initial documentDirectory) where
  folder := by simp [State.initial]
  calls := by simp [State.initial]
  placed := by simp [State.initial]
  free := by simp [State.initial]
  copies := by simp [State.initial]
  listed := by simp [State.initial, State.Lists]

theorem InStep.next (h : InStep s) {action : Action} (hkeeps : keepsStep s action = true)
    (hnext : (machine documentDirectory).next s action = some t) : InStep t := by
  cases action with
  | update bundle =>
      simp only [machine, update, Option.ite_none_right_eq_some, Option.some.injEq] at hnext
      obtain ⟨-, rfl⟩ := hnext
      refine ⟨h.folder, ?_, ?_, ?_, ?_, ?_⟩ <;> simp [stop, State.Lists]
  | launch outcome bundleUrls localUrls => exact h.launch hkeeps hnext
  | copyBot bot =>
      simp only [machine, copyBot, Option.ite_none_right_eq_some, Option.some.injEq] at hnext
      obtain ⟨⟨-, hheld⟩, rfl⟩ := hnext
      have hkept : ∀ other : Call, other ∈ s.calls → other ∈ s.calls ++ [⟨bot, .guards⟩] :=
        fun other hother => List.mem_append_left _ hother
      refine ⟨h.folder, fun call hcall => ?_, fun call hcall hreload => ?_, h.free, ?_, ?_⟩
      · rcases List.mem_append.mp hcall with hold | hnew
        · exact h.calls call hold
        · rw [List.mem_singleton.mp hnew]
          refine ⟨trivial, fun hfree => ?_⟩
          simp only [keepsStep, hfree, Bool.false_or, Bool.and_eq_true, beq_iff_eq,
            Bool.not_eq_true'] at hkeeps
          obtain ⟨hfolder, hvisible⟩ := hkeeps
          obtain ⟨-, hext, hloaded⟩ := hheld
          have hinit := hloaded hfolder
          exact ⟨⟨FileSystem.mem_bundle_urls.mpr ⟨hfolder, ChatBot.directory_of_init hinit, hext⟩,
            hinit, hfree⟩, hvisible⟩
      · rcases List.mem_append.mp hcall with hold | hnew
        · exact h.placed call hold hreload
        · rw [List.mem_singleton.mp hnew] at hreload
          cases hreload
      · intro hrunning url name hfolder hname
        refine (h.copies hrunning url name hfolder hname).imp_right ?_
        rintro ⟨other, hother, hplace⟩
        exact ⟨other, hkept other hother, hplace⟩
      · intro name hname
        refine (h.listed name hname).imp_right ?_
        rintro ⟨other, hother, hwaits⟩
        exact ⟨other, hkept other hother, hwaits⟩
  | step i outcome => exact h.step hkeeps hnext
  | runBlock =>
      simp only [machine, runBlock] at hnext
      split at hnext
      · cases hnext
      · rename_i newBot rest hmain
        obtain rfl := Option.some.inj hnext
        refine ⟨h.folder, h.calls, h.placed, ?_, ?_, ?_⟩ <;> simp only [lists_run_block hmain]
        · exact h.free
        · exact h.copies
        · exact h.listed

theorem lists_of_no_block (h : s.main = []) :
    s.Lists name ↔ name ∈ s.bots.map ChatBot.name := by
  simp [State.Lists, h]

theorem in_step_of_reachable
    (h : ((machine documentDirectory).restrict keepsStep).Reachable s) : InStep s :=
  h.restrict_induction (P := InStep) InStep.initial fun _ _ _ _ hstate hkeeps hnext =>
    hstate.next hkeeps hnext

/-- Creating the `chatbots` folder changes nothing that a launch finds. -/
theorem finds_create_chatbots (fs : FileSystem) (outcome : Outcome) :
    Finds (fs.createChatbots outcome) name ↔ Finds fs name := by
  simp only [Finds, bundle_urls_congr (bundle_create_chatbots fs outcome),
    ChatBot.init_congr (directory_create_chatbots fs outcome _),
    local_name_congr (directory_create_chatbots fs outcome _)]

/-- When nothing is under way, the names in the list are those that a launch finds. -/
theorem InStep.lists_iff (h : InStep s) (hrunning : s.running = true)
    (hreturned : ∀ call ∈ s.calls, ∃ copied, call.stage = .returned copied) :
    s.Lists name ↔ Finds s.fs name := by
  constructor
  · intro hname
    refine (h.listed name hname).resolve_right ?_
    rintro ⟨call, hcall, hcopy, -⟩
    obtain ⟨copied, hreturned⟩ := hreturned call hcall
    simp [hreturned] at hcopy
  · rintro (⟨url, hurl, bot, hinit, hfree, rfl⟩ | ⟨url, hfolder, hname⟩)
    · exact h.free hrunning url hurl bot hinit hfree
    · refine (h.copies hrunning url name hfolder hname).resolve_right ?_
      rintro ⟨call, hcall, hreload, -⟩
      obtain ⟨copied, hreturned⟩ := hreturned call hcall
      simp [hreturned] at hreload

/-- Where a launch can read all directories, it takes up what there is, and nothing else. -/
theorem InStep.launched_iff (h : InStep s) {outcome : Outcome} {bundleUrls localUrls : List URL}
    (hreads : keepsStep s (.launch outcome bundleUrls localUrls) = true)
    (hlaunch : Bots.launch s outcome bundleUrls localUrls = some t) (name : ChatBotId) :
    name ∈ t.bots.map ChatBot.name ↔ Finds s.fs name := by
  have hlaunched := h.launch hreads hlaunch
  simp only [Bots.launch, Option.ite_none_right_eq_some, Option.some.injEq] at hlaunch
  obtain ⟨-, rfl⟩ := hlaunch
  have hafter : _ ↔ Finds _ name := hlaunched.lists_iff rfl (by simp [stop])
  rw [finds_create_chatbots] at hafter
  exact (lists_of_no_block rfl).symm.trans hafter

/-- In every run that keeps list and folders in step: when all calls have returned and their main
blocks have run, a relaunch finds bots of the names that are active, and of no others. -/
theorem relaunch_changes_nothing
    (h : ((machine documentDirectory).restrict keepsStep).Reachable s) (hrunning : s.running = true)
    (hreturned : ∀ call ∈ s.calls, ∃ copied, call.stage = .returned copied) (hmain : s.main = [])
    {outcome : Outcome} {bundleUrls localUrls : List URL}
    (hreads : keepsStep s (.launch outcome bundleUrls localUrls) = true)
    (hlaunch : launch s outcome bundleUrls localUrls = some t) (name : ChatBotId) :
    name ∈ t.bots.map ChatBot.name ↔ name ∈ s.bots.map ChatBot.name := by
  have hstate := in_step_of_reachable h
  rw [hstate.launched_iff hreads hlaunch, ← hstate.lists_iff hrunning hreturned,
    lists_of_no_block hmain]

/-- Two copies of one bot are made at a time, and the second call removes what the first one has
copied before it is reloaded. -/
theorem relaunch_changes_nothing_run :
    ∃ s t : State, ((machine true).restrict keepsStep).Reachable s ∧
      s.bots.map ChatBot.name = ["a"] ∧
      launch s .ok [(ChatBot.named "a").url, (ChatBot.named "b").url]
        [(ChatBot.named "a").destinationUrl] = some t ∧
      ∀ name, name ∈ t.bots.map ChatBot.name ↔ name ∈ s.bots.map ChatBot.name := by
  obtain ⟨s, hs, ⟨hrunning, hreturned, hmain, hkeeps, hlaunch⟩, hnames⟩ :=
    ((machine true).restrict keepsStep).exists_reachable
      [.update (FileSystem.fresh ["a", "b"]).bundle,
        .launch .ok [(ChatBot.named "a").url, (ChatBot.named "b").url] [],
        .copyBot (.named "a"), .copyBot (.named "a"),
        .step 0 .ok, .step 0 .ok, .step 0 .ok, .step 0 .ok, .step 1 .ok, .step 1 .ok, .step 1 .ok,
        .step 1 .ok, .step 0 .ok, .step 1 .ok, .step 1 .ok, .runBlock]
      (fun s => (s.running = true ∧
        (∀ call ∈ s.calls, call.stage = .returned false ∨ call.stage = .returned true) ∧
        s.main = [] ∧
        keepsStep s (.launch .ok [(ChatBot.named "a").url, (ChatBot.named "b").url]
          [(ChatBot.named "a").destinationUrl]) = true ∧
        (launch s .ok [(ChatBot.named "a").url, (ChatBot.named "b").url]
          [(ChatBot.named "a").destinationUrl]).isSome = true) ∧
        s.bots.map ChatBot.name = ["a"]) (by decide)
  obtain ⟨t, ht⟩ := Option.isSome_iff_exists.mp hlaunch
  refine ⟨s, t, hs, hnames, ht,
    relaunch_changes_nothing hs hrunning (fun call hcall => ?_) hmain hkeeps ht⟩
  exact (hreturned call hcall).elim (fun hfailed => ⟨false, hfailed⟩) fun hdone => ⟨true, hdone⟩

end AiGramLib.Bots
