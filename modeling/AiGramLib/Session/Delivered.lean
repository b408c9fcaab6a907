import AiGramLib.Purchases.FromStore
import AiGramLib.Purchases.Truthful
import AiGramLib.Session.Machine

/-!
# A purchase that is reported as done is in the list

When the completion of `buyBot` is told `true`, the caller goes on to show the bot, and
`handleMessages` asks the bots of the list only. `purchased_bot_active` says that the list has a
bot of the bought one's name by then: a free bot has been in it since the launch, and the copy of
another one has been reloaded under its name and appended. What could come in between is another
installation at the same place, and a file operation that fails half-way; what such an operation
leaves must not load as another bot (`keepsNames`).
-/

namespace AiGramLib

/-- The name of the bot that is loaded from a directory. -/
def FileSystem.nameAt (fs : FileSystem) (url : URL) : Option ChatBotId :=
  (ChatBot.init fs url).map ChatBot.name

theorem name_at_congr {fs other : FileSystem} {url : URL}
    (h : other.directory url = fs.directory url) : other.nameAt url = fs.nameAt url := by
  simp only [FileSystem.nameAt, ChatBot.init_congr h]

theorem name_at_of_no_directory {fs : FileSystem} {url : URL} (h : fs.directory url = none) :
    fs.nameAt url = none := by
  simp [FileSystem.nameAt, ChatBot.init, h]

/-- What a failed operation leaves at this place loads under this name, if it loads at all. -/
def leavesName (fs : FileSystem) (place : URL) (name : Option ChatBotId) : Outcome → Bool
  | .ok => true
  | .fails left =>
      let left := (fs.replace place.lastPathComponent left).nameAt place
      left == none || left == name

/-- A file operation of `copyBot` that fails leaves parts of the directory that it was removing or
copying: they do not load as another bot. -/
def copyKeepsName (bot : ChatBot) (fs : FileSystem) (stage : CopyStage) (outcome : Outcome) :
    Bool :=
  match stage with
  | .remove => leavesName fs bot.destinationUrl (fs.nameAt bot.destinationUrl) outcome
  | .copy => leavesName fs bot.destinationUrl (fs.nameAt bot.url) outcome
  | _ => true

section

variable {bot : ChatBot} {fs : FileSystem} {stage : CopyStage} {outcome : Outcome}
  {effect : CopyEffect}

/-- A bot of the bundle has its name at its own address, and at its destination once it has been
copied there. -/
theorem Installable.name_at_url (h : Installable fs bot) : fs.nameAt bot.url = some bot.name := by
  simp [FileSystem.nameAt, h.loaded, ChatBot.name]

theorem Installable.name_at_copy {other : FileSystem} (h : Installable fs bot)
    (hdirectory : other.directory bot.destinationUrl = fs.directory bot.url) :
    other.nameAt bot.destinationUrl = some bot.name := by
  simp [FileSystem.nameAt, h.init_copy hdirectory, ChatBot.installedCopy, ChatBot.name]

/-- What has been left has the name that it was allowed to have, or none. -/
theorem name_at_left {place : URL} {name : Option ChatBotId} {left : Option Directory}
    {other : FileSystem} (hfolder : fs.chatbots.isSome = true) (hplace : place.folder = .chatbots)
    (hdirectory : other.directory place = left)
    (h : leavesName fs place name (.fails left) = true) :
    other.nameAt place = none ∨ other.nameAt place = name := by
  obtain ⟨folder, component⟩ := place
  obtain rfl : folder = .chatbots := hplace
  have hsame : other.nameAt ⟨.chatbots, component⟩ =
      (fs.replace component left).nameAt ⟨.chatbots, component⟩ :=
    name_at_congr (hdirectory.trans (FileSystem.directory_replace_self hfolder component left).symm)
  rw [hsame]
  simpa [leavesName] using h

/-- The name at the destination after an operation: none, the one that was there before or that of
the bot. -/
theorem copy_step_name_at (h : copyStep bot fs stage outcome = some effect)
    (hready : stage.Ready bot fs) (hinstallable : bot.isFree = false → Installable fs bot)
    (hkeeps : copyKeepsName bot fs stage outcome = true) :
    effect.fs.nameAt bot.destinationUrl = none ∨
    effect.fs.nameAt bot.destinationUrl = fs.nameAt bot.destinationUrl ∨
    bot.isFree = false ∧ effect.fs.nameAt bot.destinationUrl = some bot.name := by
  rcases copy_step_destination h hready with hsame | ⟨rfl, hdirectory⟩ | ⟨rfl, -, hdirectory⟩
  · exact .inr (.inl (name_at_congr hsame))
  · cases outcome with
    | ok => exact .inl (name_at_of_no_directory hdirectory)
    | fails left => exact (name_at_left hready.2.2 rfl hdirectory hkeeps).imp_right .inl
  · cases outcome with
    | ok => exact .inr (.inr ⟨hready.1, (hinstallable hready.1).name_at_copy hdirectory⟩)
    | fails left =>
        rw [← (hinstallable hready.1).name_at_url]
        exact (name_at_left hready.2.2 rfl hdirectory hkeeps).imp_right fun hname =>
          .inr ⟨hready.1, hname⟩

/-- A copy comes to its reload with the name of its bot. -/
theorem copy_step_reload_name (h : copyStep bot fs stage outcome = some effect)
    (hready : stage.Ready bot fs) (hinstallable : bot.isFree = false → Installable fs bot)
    (hreload : effect.stage = .reload) : effect.fs.nameAt bot.destinationUrl = some bot.name := by
  have hpaid : effect.stage.Ready bot effect.fs := hready.step h
  rw [hreload] at hpaid
  have hown := hinstallable hpaid.1
  refine hown.name_at_copy ((copy_step_copied h hready hreload).2.trans ?_)
  simp only [FileSystem.directory, hown.located.1, copy_step_bundle h]

end

namespace Session

open Transition
open Purchases (FromStore)

variable {fs : FileSystem} {bundleUrls localUrls urls : List URL} {s t : State} {action : Action}

/-- No file operation of the session leaves anything that loads as another bot. -/
def keepsNames (s : State) : Action → Bool
  | .purchases (.copy i outcome) =>
      s.purchases.installations[i]?.all fun installation =>
        match installation.stage with
        | .copying stage => copyKeepsName installation.bot s.purchases.fs stage outcome
        | _ => true
  | _ => true

/-- The list has a bot of this name, or a block of the installation of this number is going to
append one. -/
def State.Announces (s : State) (number : Nat) (name : ChatBotId) : Prop :=
  (∃ active ∈ s.bots, active.name = name) ∨
    ∃ block ∈ s.main, block.number = number ∧ block.newBot.name = name

/-- What is reloaded has the name of its bot or fails, and an installation that will report `true`
has had its bot announced. -/
structure Announced (fs : FileSystem) (bundleUrls : List URL) (s : State) : Prop where
  length : s.numbers.length = s.purchases.installations.length
  reload : ∀ installation ∈ s.purchases.installations, installation.stage = .copying .reload →
    s.purchases.fs.nameAt installation.bot.destinationUrl = none ∨
      s.purchases.fs.nameAt installation.bot.destinationUrl = some installation.bot.name
  free : ∀ url ∈ bundleUrls, ∀ bot, ChatBot.init fs url = some bot → bot.isFree = true →
    ∃ active ∈ s.bots, active.name = bot.name
  captured : ∀ (i number : Nat) (installation : Purchases.Installation),
    s.purchases.installations[i]? = some installation →
    s.numbers[i]? = some number → installation.stage.captured = some true →
    s.Announces number installation.bot.name

theorem Announced.initial : Announced fs bundleUrls (.initial fs bundleUrls localUrls) where
  length := rfl
  reload := by simp [State.initial, Purchases.State.initial]
  free url hurl bot hinit hfree := by
    refine ⟨bot, List.mem_append_left _ ?_, rfl⟩
    exact List.mem_filterMap.mpr ⟨url, hurl, by simp [hinit, hfree]⟩
  captured := by simp [State.initial, Purchases.State.initial]

theorem Announced.free_active (h : Announced fs bundleUrls s)
    (hurls : ∀ url ∈ urls, url ∈ bundleUrls) {bot : ChatBot} (hstore : FromStore fs urls bot)
    (hfree : bot.isFree = true) : ∃ active ∈ s.bots, active.name = bot.name := by
  obtain ⟨url, hurl, hinit⟩ := hstore
  exact h.free url (hurls url hurl) { bot with index := 0 } hinit hfree

/-- What has been announced stays so while blocks are added and run. -/
theorem State.Announces.mono {number : Nat} {name : ChatBotId} (h : s.Announces number name)
    (hbots : t.bots = s.bots) (hmain : s.main ⊆ t.main) : t.Announces number name := by
  rcases h with ⟨active, hactive, hname⟩ | ⟨block, hblock, hname⟩
  · exact .inl ⟨active, hbots ▸ hactive, hname⟩
  · exact .inr ⟨block, hmain hblock, hname⟩

theorem Announced.of_same (h : Announced fs bundleUrls s)
    (hfs : t.purchases.fs = s.purchases.fs)
    (hinstallations : t.purchases.installations = s.purchases.installations)
    (hnumbers : t.numbers = s.numbers) (hbots : t.bots = s.bots) (hmain : t.main = s.main) :
    Announced fs bundleUrls t where
  length := by rw [hnumbers, hinstallations, h.length]
  reload := by rw [hinstallations, hfs]; exact h.reload
  free := by rw [hbots]; exact h.free
  captured := by
    rw [hinstallations, hnumbers]
    intro i number installation hinstallation hnumber hcaptured
    exact (h.captured i number installation hinstallation hnumber hcaptured).mono hbots
      (by rw [hmain]; exact List.Subset.refl _)

/-- A handler that finds its bot dispatches an installation at its first stage. -/
theorem Announced.dispatched (h : Announced fs bundleUrls s) {purchases : Purchases.State}
    {productIdentifier : String} {bot : ChatBot} (hfs : purchases.fs = s.purchases.fs)
    (hinstallations : purchases.installations =
      s.purchases.installations ++ [⟨productIdentifier, bot, .copying .guards⟩]) :
    Announced fs bundleUrls { s with
      purchases
      numbers := s.numbers ++ [s.dispatched]
      dispatched := s.dispatched + 1 } where
  length := by simp [hinstallations, h.length]
  reload := by
    intro installation hmem hstage
    rw [hinstallations] at hmem
    rcases List.mem_append.mp hmem with hold | hnew
    · rw [hfs]
      exact h.reload installation hold hstage
    · rw [List.mem_singleton.mp hnew] at hstage
      cases hstage
  free := h.free
  captured := by
    intro i number installation hinstallation hnumber hcaptured
    replace hinstallation : (s.purchases.installations ++
        [⟨productIdentifier, bot, .copying .guards⟩])[i]? = some installation :=
      hinstallations ▸ hinstallation
    rcases Nat.lt_or_ge i s.purchases.installations.length with hold | hnew
    · rw [List.getElem?_append_left hold] at hinstallation
      rw [List.getElem?_append_left (h.length ▸ hold)] at hnumber
      exact (h.captured i number installation hinstallation hnumber hcaptured).mono rfl
        (List.Subset.refl _)
    · rw [List.getElem?_append_right hnew] at hinstallation
      rw [List.mem_singleton.mp (List.mem_of_getElem? hinstallation)] at hcaptured
      cases hcaptured

/-- A file operation of an installation: what it reloads is announced. -/
theorem Announced.copied (h : Announced fs bundleUrls s)
    (hurls : ∀ url ∈ urls, url ∈ bundleUrls) (hbundle : ∀ url ∈ bundleUrls, url ∈ fs.bundleUrls)
    (hsame : s.purchases.fs.bundle = fs.bundle)
    (hstore : ∀ installation ∈ s.purchases.installations, FromStore fs urls installation.bot)
    (hready : ∀ installation ∈ s.purchases.installations, installation.Ready s.purchases.fs)
    {purchases : Purchases.State} {i : Nat} {outcome : Outcome}
    {installation : Purchases.Installation} {stage : CopyStage} {effect : CopyEffect}
    (hkeeps : copyKeepsName installation.bot s.purchases.fs stage outcome = true)
    (hinstallation : s.purchases.installations[i]? = some installation)
    (hstage : installation.stage = .copying stage)
    (hstep : copyStep installation.bot s.purchases.fs stage outcome = some effect)
    (hfs : purchases.fs = effect.fs)
    (hinstallations : purchases.installations = s.purchases.installations.set i
      { installation with stage := .copying effect.stage }) :
    Announced fs bundleUrls { s with
      purchases
      main := s.main ++
        (s.numbers[i]?.bind fun number => effect.newBot.map (Block.mk number)).toList } := by
  have hmem := List.mem_of_getElem? hinstallation
  have hown : stage.Ready installation.bot s.purchases.fs := by
    simpa [Purchases.Installation.Ready, hstage] using hready installation hmem
  have hlisted : ∀ url ∈ urls, url ∈ fs.bundleUrls := fun url hurl => hbundle url (hurls url hurl)
  have hinstallable : installation.bot.isFree = false →
      Installable s.purchases.fs installation.bot := fun hfree =>
    ((hstore installation hmem).installable hlisted hfree).congr_bundle hsame
  refine ⟨?_, ?_, h.free, ?_⟩
  · simp [hinstallations, h.length]
  · intro other hother hreload
    rw [hfs]
    rcases List.mem_or_eq_of_mem_set (hinstallations ▸ hother) with hold | rfl
    · by_cases hplace : other.bot.destinationUrl = installation.bot.destinationUrl
      · have hpaid : CopyStage.reload.Ready other.bot s.purchases.fs := by
          simpa [Purchases.Installation.Ready, hreload] using hready other hold
        rw [hplace]
        rcases copy_step_name_at hstep hown hinstallable hkeeps with
          hnone | hkept | ⟨hfree, hname⟩
        · exact .inl hnone
        · rw [hkept, ← hplace]
          exact h.reload other hold hreload
        · refine .inr (hname.trans (congrArg some ?_))
          have hinstalled := (hstore installation hmem).installable hlisted hfree
          have hreloaded := (hstore other hold).installable hlisted hpaid.1
          exact (hinstalled.name_eq hreloaded hplace).symm
      · rw [name_at_congr (copy_step_frame hstep hplace)]
        exact h.reload other hold hreload
    · exact .inr (copy_step_reload_name hstep hown hinstallable
        (Purchases.Stage.copying.inj hreload))
  · intro j number other hother hnumber hcaptured
    replace hother : (s.purchases.installations.set i
        { installation with stage := .copying effect.stage })[j]? = some other :=
      hinstallations ▸ hother
    by_cases hij : i = j
    · subst hij
      rw [List.getElem?_set_self (List.getElem?_eq_some_iff.mp hinstallation).1] at hother
      obtain rfl := Option.some.inj hother
      have hreturned : effect.stage = .returned true := by
        cases hpoint : effect.stage <;> simp_all [Purchases.Stage.captured]
      cases hfree : installation.bot.isFree with
      | true =>
          exact .inl (h.free_active hurls (hstore installation hmem) hfree)
      | false =>
          rcases copy_step_new_bot hstep hfree with ⟨hnot, -⟩ | ⟨-, rfl, -, newBot, hinit, hnew⟩
          · exact absurd hreturned hnot
          · refine .inr ⟨⟨number, newBot⟩, by simp [hnumber, hnew], rfl, ?_⟩
            rcases h.reload installation hmem hstage with hnone | hname
            · simp [FileSystem.nameAt, hinit] at hnone
            · simpa [FileSystem.nameAt, hinit] using hname
    · rw [List.getElem?_set_ne hij] at hother
      exact (h.captured j number other hother hnumber hcaptured).mono rfl
        (List.subset_append_left _ _)

/-- Once `copyBot` has returned, its result is handed on. -/
theorem Announced.proceeded (h : Announced fs bundleUrls s) {purchases : Purchases.State}
    {i : Nat} {failed : Bool} {installation : Purchases.Installation} {stage : Purchases.Stage}
    (hinstallation : s.purchases.installations[i]? = some installation)
    (hstage : Purchases.nextStage s.purchases failed installation.stage = some stage)
    (hfs : purchases.fs = s.purchases.fs)
    (hinstallations : purchases.installations =
      s.purchases.installations.set i { installation with stage }) :
    Announced fs bundleUrls { s with purchases } := by
  refine ⟨?_, ?_, h.free, ?_⟩
  · simp [hinstallations, h.length]
  · intro other hother hreload
    rw [hfs]
    rcases List.mem_or_eq_of_mem_set (hinstallations ▸ hother) with hold | rfl
    · exact h.reload other hold hreload
    · exact absurd (hstage.trans (congrArg some hreload)) Purchases.nextStage_ne_copying
  · intro j number other hother hnumber hcaptured
    replace hother : (s.purchases.installations.set i { installation with stage })[j]? =
        some other := hinstallations ▸ hother
    by_cases hij : i = j
    · subst hij
      rw [List.getElem?_set_self (List.getElem?_eq_some_iff.mp hinstallation).1] at hother
      obtain rfl := Option.some.inj hother
      refine (h.captured i number installation hinstallation hnumber ?_).mono rfl
        (List.Subset.refl _)
      exact (Purchases.captured_nextStage hstage).1.symm.trans hcaptured
    · rw [List.getElem?_set_ne hij] at hother
      exact (h.captured j number other hother hnumber hcaptured).mono rfl (List.Subset.refl _)

theorem Announced.delivered (h : Announced fs bundleUrls s) {purchases : Purchases.State}
    {i : Nat} (hfs : purchases.fs = s.purchases.fs)
    (hinstallations : purchases.installations = s.purchases.installations.eraseIdx i) :
    Announced fs bundleUrls { s with purchases, numbers := s.numbers.eraseIdx i } := by
  have hkept : ∀ installation ∈ purchases.installations,
      installation ∈ s.purchases.installations := fun installation hmem =>
    List.mem_of_mem_eraseIdx (hinstallations ▸ hmem)
  refine ⟨?_, ?_, h.free, ?_⟩
  · simp [hinstallations, List.length_eraseIdx, h.length]
  · intro installation hmem hreload
    rw [hfs]
    exact h.reload installation (hkept installation hmem) hreload
  · intro j number installation hinstallation hnumber hcaptured
    replace hinstallation : (s.purchases.installations.eraseIdx i)[j]? = some installation :=
      hinstallations ▸ hinstallation
    -- what stands behind the erased place has moved up in both lists
    rw [List.getElem?_eraseIdx] at hinstallation hnumber
    split at hinstallation
    · rename_i hlt
      rw [if_pos hlt] at hnumber
      exact (h.captured j number installation hinstallation hnumber hcaptured).mono rfl
        (List.Subset.refl _)
    · rename_i hge
      rw [if_neg hge] at hnumber
      exact (h.captured (j + 1) number installation hinstallation hnumber hcaptured).mono rfl
        (List.Subset.refl _)

theorem Announced.appended (h : Announced fs bundleUrls s) {block : Block}
    {rest : List Block} (hmain : s.main = block :: rest) :
    Announced fs bundleUrls { s with
      bots := appendBot s.bots block.newBot
      main := rest } := by
  obtain ⟨hbefore, hadded⟩ := prefix_append_bot s.bots block.newBot
  refine ⟨h.length, h.reload, ?_, ?_⟩
  · intro url hurl bot hinit hfree
    obtain ⟨active, hactive, hname⟩ := h.free url hurl bot hinit hfree
    exact ⟨active, hbefore.subset hactive, hname⟩
  · intro i number installation hinstallation hnumber hcaptured
    rcases h.captured i number installation hinstallation hnumber hcaptured with
      ⟨active, hactive, hname⟩ | ⟨announced, hblock, hsame, hname⟩
    · exact .inl ⟨active, hbefore.subset hactive, hname⟩
    · rw [hmain] at hblock
      rcases List.mem_cons.mp hblock with rfl | hrest
      · obtain ⟨active, hactive, hactiveName⟩ := hadded
        exact .inl ⟨active, hactive, hactiveName.trans hname⟩
      · exact .inr ⟨announced, hrest, hsame, hname⟩

/-- Every step of a session keeps what is announced. -/
theorem Announced.step (h : Announced fs bundleUrls s)
    (hurls : ∀ url ∈ urls, url ∈ bundleUrls) (hbundle : ∀ url ∈ bundleUrls, url ∈ fs.bundleUrls)
    (hreach : (machine fs bundleUrls localUrls urls).Reachable s)
    (hkeeps : keepsNames s action = true) (hstep : Step s action t) :
    Announced fs bundleUrls t := by
  cases hstep with
  | quiet action purchases hfs hinstallations =>
      exact h.of_same hfs hinstallations rfl rfl rfl
  | dispatched purchases productIdentifier bot hbot hfs hinstallations =>
      exact h.dispatched hfs hinstallations
  | copied purchases i outcome installation stage effect hinstallation hstage hcopy hfs
      hinstallations =>
      have hkept : copyKeepsName installation.bot s.purchases.fs stage outcome = true := by
        simpa [keepsNames, hinstallation, hstage] using hkeeps
      have hpurchases := purchases_reachable hreach
      exact h.copied hurls hbundle (Purchases.bundle_of_reachable hpurchases)
        (Purchases.from_store_of_reachable hpurchases) (Purchases.ready_of_reachable hpurchases)
        hkept hinstallation hstage hcopy hfs hinstallations
  | proceeded purchases i failed installation stage hinstallation hstage hfs hinstallations =>
      exact h.proceeded hinstallation hstage hfs hinstallations
  | delivered purchases i installation copied hinstallation hstage hfs hinstallations =>
      exact h.delivered hfs hinstallations
  | appended block rest hmain => exact h.appended hmain

theorem announced_of_reachable (hurls : ∀ url ∈ urls, url ∈ bundleUrls)
    (hbundle : ∀ url ∈ bundleUrls, url ∈ fs.bundleUrls)
    (h : ((machine fs bundleUrls localUrls urls).restrict keepsNames).Reachable s) :
    Announced fs bundleUrls s :=
  h.restrict_induction (P := Announced fs bundleUrls) .initial
    fun _ _ _ hreach hstate hkeeps hnext =>
      hstate.step hurls hbundle hreach hkeeps (step_of_next hnext)

/-- The bot of an installation that is going to report `true` has been announced. -/
theorem Announced.exists_announced (h : Announced fs bundleUrls s) {i : Nat}
    {installation : Purchases.Installation}
    (hinstallation : s.purchases.installations[i]? = some installation)
    (hcaptured : installation.stage.captured = some true) :
    ∃ number, s.numbers[i]? = some number ∧ s.Announces number installation.bot.name := by
  have hlt : i < s.numbers.length := by
    rw [h.length]
    exact (List.getElem?_eq_some_iff.mp hinstallation).1
  have hnumber := List.getElem?_eq_getElem hlt
  exact ⟨_, hnumber, h.captured i _ installation hinstallation hnumber hcaptured⟩

/-- When it is about to report, no block of its own is on the main queue any more. -/
theorem Announced.exists_active (h : Announced fs bundleUrls s) {i : Nat}
    {installation : Purchases.Installation}
    (hinstallation : s.purchases.installations[i]? = some installation)
    (hcaptured : installation.stage.captured = some true) (hturn : s.appended i = true) :
    ∃ active ∈ s.bots, active.name = installation.bot.name := by
  obtain ⟨number, hnumber, hactive | ⟨block, hblock, hsame, -⟩⟩ :=
    h.exists_announced hinstallation hcaptured
  · exact hactive
  · -- the block that announces the bot would be in front of this one
    have hwaits : s.appended i = false := by
      simp only [State.appended, hnumber, Option.all_some, List.all_eq_false]
      exact ⟨block, hblock, by simp [hsame]⟩
    exact absurd (hwaits.symm.trans hturn) (by decide)

/-- When the main block that reports `true` for an installation is about to run, the list of active
bots has a bot of its name. -/
theorem purchased_bot_active (hurls : ∀ url ∈ urls, url ∈ bundleUrls)
    (hbundle : ∀ url ∈ bundleUrls, url ∈ fs.bundleUrls)
    (h : ((machine fs bundleUrls localUrls urls).restrict keepsNames).Reachable s) {i : Nat}
    {installation : Purchases.Installation}
    (hinstallation : s.purchases.installations[i]? = some installation)
    (hstage : installation.stage = .reporting true)
    (hturn : s.admits (.deliver i) = true) :
    ∃ active ∈ s.bots, active.name = installation.bot.name :=
  (announced_of_reachable hurls hbundle h).exists_active hinstallation (by rw [hstage]; rfl) hturn

/-- The store is loaded, the bot of the bundle is bought, and its copy is appended. -/
def purchaseOfA : List Action :=
  ([.loader .botsInStore, .loader (.load (some "a") 3), .loader (.didReceive 0 [⟨idOfName "a"⟩]),
    .loader .runBlock, .loader .continue, .loader .continue, .setUserId 7,
    .buyBot (ChatBot.named "a"), .updatedTransactions [⟨0, some 0, idOfName "a", .purchased⟩],
    .continue, .copy 0 .ok, .copy 0 .ok, .copy 0 .ok, .copy 0 .ok, .copy 0 .ok, .proceed 0 false,
    .proceed 0 false, .proceed 0 false, .proceed 0 false] : List Purchases.Action).map
    Action.purchases ++ [.append]

/-- A bot is bought; its copy has been appended when the result is about to be reported. -/
theorem purchased_bot_active_run :
    ∃ s : State,
      ((machine (.fresh ["a"]) [(ChatBot.named "a").url] [] [(ChatBot.named "a").url]).restrict
        keepsNames).Reachable s ∧
      s.purchases.installations.map Purchases.Installation.stage = [.reporting true] ∧
      ∃ active ∈ s.bots, active.name = "a" := by
  have hbundle : (ChatBot.named "a").url ∈ (FileSystem.fresh ["a"]).bundleUrls := by decide
  obtain ⟨s, hs, hturn, hinstallations⟩ :=
    ((machine (.fresh ["a"]) [(ChatBot.named "a").url] [] [(ChatBot.named "a").url]).restrict
      keepsNames).exists_reachable purchaseOfA
      (fun s => s.admits (.deliver 0) = true ∧ s.purchases.installations =
        [⟨idOfName "a", { ChatBot.named "a" with index := 1 }, .reporting true⟩]) (by decide)
  refine ⟨s, hs, by rw [hinstallations]; rfl, ?_⟩
  exact purchased_bot_active (by simp) (by simpa using hbundle) hs
    (by rw [hinstallations]; rfl) rfl hturn

end Session

end AiGramLib
