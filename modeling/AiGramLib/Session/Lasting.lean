import AiGramLib.Bots.Lasting
import AiGramLib.Session.Active

/-!
# A purchased bot outlives the session

Once the `copyBot` of an installation has returned `true`, its bot is announced; from then on it
stays so while the session goes on, and at the end, when all that was under way has run, list and
folders agree. So the next launch takes up a bot of its name (`purchased_bot_lasts`), whatever
other purchases there were meanwhile, at the same place or at others.
-/

namespace AiGramLib

open Transition

namespace Bots

/-- A launch depends on the files only. -/
theorem launch_congr {s other : State} (h : other.fs = s.fs) (outcome : Outcome)
    (bundleUrls localUrls : List URL) :
    launch other outcome bundleUrls localUrls = launch s outcome bundleUrls localUrls ∧
      keepsStep other (.launch outcome bundleUrls localUrls) =
        keepsStep s (.launch outcome bundleUrls localUrls) := by
  simp [launch, stop, keepsStep, h]

end Bots

namespace Session

/-- The file operations of installations keep list and folders in step. -/
def keepsStep (s : State) : Action → Bool
  | .purchases (.copy i outcome) =>
      s.purchases.installations[i]?.all fun installation =>
        match installation.stage with
        | .copying stage => Bots.copyKeepsStep s.purchases.fs installation.bot stage outcome
        | _ => true
  | _ => true

/-- Nor does one that fails leave another bot. -/
def keepsBots (s : State) (action : Action) : Bool :=
  keepsNames s action && keepsStep s action

/-- A bot of this name is active, or one of the main blocks is going to append it. -/
def State.Lists (s : State) (name : ChatBotId) : Prop :=
  (∃ active ∈ s.bots, active.name = name) ∨ ∃ block ∈ s.main, block.newBot.name = name

variable {fs : FileSystem} {bundleUrls localUrls urls : List URL} {s t : State} {action : Action}
  {name : ChatBotId}

/-- No step of a session takes a bot out of the list. -/
theorem Step.lists (h : Step s action t) (hname : s.Lists name) : t.Lists name := by
  cases h with
  | quiet | dispatched | proceeded | delivered => exact hname
  | copied =>
      exact hname.imp_right fun ⟨block, hblock, hsame⟩ =>
        ⟨block, List.mem_append_left _ hblock, hsame⟩
  | appended block rest hmain =>
      obtain ⟨hbefore, added, hadded, haddedName⟩ := prefix_append_bot s.bots block.newBot
      rcases hname with ⟨active, hactive, hsame⟩ | ⟨other, hother, hsame⟩
      · exact .inl ⟨active, hbefore.subset hactive, hsame⟩
      · rw [hmain] at hother
        rcases List.mem_cons.mp hother with rfl | hrest
        · exact .inl ⟨added, hadded, haddedName.trans hsame⟩
        · exact .inr ⟨other, hrest, hsame⟩

/-- Installations are of bots of the bundle whose copies are not hidden. -/
theorem keeps_step_gives (hurls : ∀ url ∈ urls, url ∈ fs.bundleUrls)
    (hvisible : ∀ url ∈ urls, url.isHidden = false) :
    Gives urls keepsStep Bots.keepsStep := by
  intro s active action action' htracked hok hcounterpart
  cases hcounterpart with
  | copyBot bot hstore =>
      obtain ⟨url, hurl, hinit⟩ := hstore
      obtain ⟨hlocated, -, hcomponents⟩ := ChatBot.located_of_init hinit
      obtain ⟨hfolder, -, hext⟩ := FileSystem.mem_bundle_urls.mp (hurls url hurl)
      obtain rfl : bot.url = url := hlocated
      have hname := ChatBot.installed_name_eq hcomponents (by rw [hext]; decide)
      have hhidden : bot.destinationUrl.isHidden = false := by
        rw [← hvisible _ hurl]
        exact congrArg (fun name : String => name.toList.head? == some '.') hname
      simp [Bots.keepsStep, hfolder, hhidden]
  | step i number outcome installation stage hinstallation hstage hcall =>
      simpa [keepsStep, Bots.keepsStep, hinstallation, hstage, hcall, htracked.fs] using hok
  | runBlock => rfl

section

variable {before launched : Bots.State} {outcome : Outcome} {documentDirectory : Bool}

/-- A session after a launch that can read all directories is a run of the active bots in which list
and folders are in step. -/
theorem exists_in_step
    (hbefore : ((Bots.machine documentDirectory).restrict Bots.keepsStep).Reachable before)
    (hreads : Bots.keepsStep before (.launch outcome bundleUrls localUrls) = true)
    (hlaunch : Bots.launch before outcome bundleUrls localUrls = some launched)
    (hurls : ∀ url ∈ urls, url ∈ bundleUrls) (hvisible : ∀ url ∈ urls, url.isHidden = false)
    (h : ((machine launched.fs bundleUrls localUrls urls).restrict keepsStep).Reachable s) :
    ∃ active, Bots.InStep active ∧ Tracks s active := by
  have hbundle := (Tracks.launched hlaunch).2.1
  have hgives := keeps_step_gives (fun url hurl => hbundle (hurls url hurl)) hvisible
  obtain ⟨active, hactive, htracked⟩ :=
    @exists_tracked _ _ _ _ documentDirectory _ _ _ _ _ hgives hlaunch hurls h
  refine ⟨active, hactive.restrict_induction (P := Bots.InStep) ?_
    (fun _ _ _ _ hstate hkeeps hnext => hstate.next hkeeps hnext), htracked⟩
  exact (Bots.in_step_of_reachable hbefore).launch hreads hlaunch

/-- At the end of a session a launch finds the bots that are active, and no others. -/
theorem found_at_end {active : Bots.State} (hactive : Bots.InStep active) (h : Tracks s active)
    (hinstallations : s.purchases.installations = []) (hmain : s.main = []) (name : ChatBotId) :
    s.Lists name ↔ Bots.Finds s.purchases.fs name := by
  have hreturned : ∀ call ∈ active.calls, ∃ copied, call.stage = .returned copied := by
    intro call hcall
    obtain ⟨number, hnumber⟩ := List.mem_iff_getElem?.mp hcall
    refine (h.returned number call hnumber).resolve_right ?_
    rintro ⟨i, installation, -, hinstallation, -⟩
    simp [hinstallations] at hinstallation
  rw [← h.fs, ← hactive.lists_iff h.running hreturned]
  simp [State.Lists, Bots.State.Lists, h.bots, h.main, hmain]

end

/-- As soon as the `copyBot` of an installation has returned `true`, its bot is there to stay: when
the session has come to its end, a launch that can read all directories takes up a bot of its
name. -/
theorem purchased_bot_lasts {before launched ended relaunched : Bots.State}
    {outcome later : Outcome} {documentDirectory : Bool} {bundleListed localListed : List URL}
    (hbefore : ((Bots.machine documentDirectory).restrict Bots.keepsStep).Reachable before)
    (hreads : Bots.keepsStep before (.launch outcome bundleUrls localUrls) = true)
    (hlaunch : Bots.launch before outcome bundleUrls localUrls = some launched)
    (hurls : ∀ url ∈ urls, url ∈ bundleUrls) (hvisible : ∀ url ∈ urls, url.isHidden = false)
    (hs : ((machine launched.fs bundleUrls localUrls urls).restrict keepsBots).Reachable s)
    {i : Nat} {installation : Purchases.Installation}
    (hinstallation : s.purchases.installations[i]? = some installation)
    (hcaptured : installation.stage.captured = some true)
    (ht : ((machine launched.fs bundleUrls localUrls urls).restrict keepsBots).Reaches s t)
    (hinstallations : t.purchases.installations = []) (hmain : t.main = [])
    (hended : ended.fs = t.purchases.fs)
    (hreadsAgain : Bots.keepsStep ended (.launch later bundleListed localListed) = true)
    (hrelaunch : Bots.launch ended later bundleListed localListed = some relaunched) :
    ∃ active ∈ relaunched.bots, active.name = installation.bot.name := by
  obtain ⟨hsame, hbundle, -⟩ := Tracks.launched hlaunch
  -- the bot is announced, and stays so until the end
  have hannounced := announced_of_reachable hurls (fun url hurl => hsame ▸ hbundle hurl)
    (hs.restrict_mono fun _ _ hkeeps => (Bool.and_eq_true_iff.mp hkeeps).1)
  obtain ⟨number, -, hannounces⟩ := hannounced.exists_announced hinstallation hcaptured
  have hlists : s.Lists installation.bot.name :=
    hannounces.imp_right fun ⟨block, hblock, _, hname⟩ => ⟨block, hblock, hname⟩
  have hlisted : t.Lists installation.bot.name :=
    ht.restrict_induction (P := fun t => t.Lists installation.bot.name) hlists
      fun _ _ _ _ hname _ hnext => (step_of_next hnext).lists hname
  -- there the folders have what the list has
  obtain ⟨active, hactive, htracked⟩ := exists_in_step hbefore hreads hlaunch hurls hvisible
    ((hs.trans ht).restrict_mono fun _ _ hkeeps => (Bool.and_eq_true_iff.mp hkeeps).2)
  have hfound := (found_at_end hactive htracked hinstallations hmain _).mp hlisted
  obtain ⟨hlaunches, hread⟩ :=
    Bots.launch_congr (hended.trans htracked.fs.symm) later bundleListed localListed
  have htaken := hactive.launched_iff (hread ▸ hreadsAgain) (hlaunches ▸ hrelaunch)
    installation.bot.name
  rw [htracked.fs] at htaken
  simpa using htaken.mpr hfound

/-- The same files on a device on which nothing runs. -/
def ended (t : State) : Bots.State :=
  { Bots.State.initial true with fs := t.purchases.fs }

/-- A bot is bought in the session after the first launch, and is there after the next one. -/
theorem purchased_bot_lasts_run :
    ∃ (before launched relaunched : Bots.State) (t : State),
      ((Bots.machine true).restrict Bots.keepsStep).Reachable before ∧
      Bots.launch before .ok [(ChatBot.named "a").url] [] = some launched ∧
      ((machine launched.fs [(ChatBot.named "a").url] [] [(ChatBot.named "a").url]).restrict
        keepsBots).Reachable t ∧
      t.bots.map ChatBot.name = ["a"] ∧
      Bots.launch (ended t) .ok [(ChatBot.named "a").url] [(ChatBot.named "a").destinationUrl] =
        some relaunched ∧
      ∃ active ∈ relaunched.bots, active.name = "a" := by
  let urls := [(ChatBot.named "a").url]
  let copies := [(ChatBot.named "a").destinationUrl]
  let installation : Purchases.Installation :=
    ⟨idOfName "a", { ChatBot.named "a" with index := 1 }, .reporting true⟩
  let session (fs : FileSystem) := (machine fs urls [] urls).restrict keepsBots
  obtain ⟨before, hbefore, hreads, hrun⟩ :=
    ((Bots.machine true).restrict Bots.keepsStep).exists_reachable
      [.update (FileSystem.fresh ["a"]).bundle]
      (fun before => Bots.keepsStep before (.launch .ok urls []) = true ∧
        (Bots.launch before .ok urls []).any fun launched =>
          ((session launched.fs).run (.initial launched.fs urls []) purchaseOfA).any fun s =>
            s.purchases.installations == [installation] &&
            ((session launched.fs).run s [.purchases (.deliver 0)]).any fun t =>
              (t.bots.map ChatBot.name = ["a"] ∧ t.purchases.installations = [] ∧ t.main = []) ∧
                Bots.keepsStep (ended t) (.launch .ok urls copies) = true ∧
                (Bots.launch (ended t) .ok urls copies).isSome = true) (by decide)
  obtain ⟨launched, hlaunch, hrun⟩ := (Option.any_eq_true _ _).mp hrun
  obtain ⟨s, hs, hrun⟩ := (Option.any_eq_true _ _).mp hrun
  obtain ⟨hinstallations, hrun⟩ := Bool.and_eq_true_iff.mp hrun
  obtain ⟨t, ht, hrun⟩ := (Option.any_eq_true _ _).mp hrun
  obtain ⟨⟨hnames, hdelivered, hmain⟩, hreadsAgain, hrelaunch⟩ := of_decide_eq_true hrun
  obtain ⟨relaunched, hrelaunched⟩ := Option.isSome_iff_exists.mp hrelaunch
  have hinstallation : s.purchases.installations[0]? = some installation := by
    rw [eq_of_beq hinstallations]
    rfl
  have hbought : (session launched.fs).Reachable s := ⟨purchaseOfA, hs⟩
  refine ⟨before, launched, relaunched, t, hbefore, hlaunch, hbought.trans ⟨_, ht⟩, hnames,
    hrelaunched, ?_⟩
  exact purchased_bot_lasts hbefore hreads hlaunch (by simp [urls]) (by decide) hbought
    hinstallation rfl ⟨_, ht⟩ hdelivered hmain rfl hreadsAgain hrelaunched

end Session

end AiGramLib
