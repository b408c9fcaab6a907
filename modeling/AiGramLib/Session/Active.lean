import AiGramLib.Bots.Distinct
import AiGramLib.Session.Delivered

/-!
# A session is a run of the active bots

What purchases do to the files and to the list of active bots, the machine of the active bots can
do: an installation is a call of `copyBot` for a bot that is held, and its number is the place of
that call. `session_refines` follows a session step by step, so that what holds of the active bots
over the life of an installation holds while bots are bought; `session_names_distinct` is one
case of it.
-/

namespace AiGramLib.Session

open Transition
open Purchases (FromStore)

/-- The condition that keeps names apart, on the file operations of installations. -/
def keepsApart (s : State) : Action → Bool
  | .purchases (.copy i outcome) =>
      s.purchases.installations[i]?.all fun installation =>
        match installation.stage with
        | .copying stage =>
            Bots.copyKeepsApart s.purchases.fs installation.bot stage outcome
        | _ => true
  | _ => true

/-- The active bots, their files and the calls of `copyBot` are where the session has them. -/
structure Tracks (s : State) (active : Bots.State) : Prop where
  fs : active.fs = s.purchases.fs
  running : active.running = true
  bots : active.bots = s.bots
  main : active.main = s.main.map Block.newBot
  dispatched : active.calls.length = s.dispatched
  length : s.numbers.length = s.purchases.installations.length
  numbers : s.numbers.Nodup ∧ ∀ number ∈ s.numbers, number < s.dispatched
  calls : ∀ (i number : Nat) (installation : Purchases.Installation) (stage : CopyStage),
    s.purchases.installations[i]? = some installation → s.numbers[i]? = some number →
    installation.stage = .copying stage →
    active.calls[number]? = some ⟨installation.bot, stage⟩
  /-- A call that has not returned is the one of its installation. -/
  returned : ∀ (number : Nat) (call : Bots.Call), active.calls[number]? = some call →
    (∃ copied, call.stage = .returned copied) ∨
      ∃ (i : Nat) (installation : Purchases.Installation), s.numbers[i]? = some number ∧
        s.purchases.installations[i]? = some installation ∧
        installation.stage = .copying call.stage

variable {fs : FileSystem} {bundleUrls localUrls urls : List URL} {s t : State} {action : Action}
  {active : Bots.State} {documentDirectory : Bool}

theorem Tracks.of_same (h : Tracks s active) {purchases : Purchases.State}
    (hfs : purchases.fs = s.purchases.fs)
    (hinstallations : purchases.installations = s.purchases.installations) :
    Tracks { s with purchases } active where
  fs := h.fs.trans hfs.symm
  running := h.running
  bots := h.bots
  main := h.main
  dispatched := h.dispatched
  length := h.length.trans (congrArg List.length hinstallations).symm
  numbers := h.numbers
  calls i number installation stage hinstallation :=
    h.calls i number installation stage (hinstallations ▸ hinstallation)
  returned number call hcall := (h.returned number call hcall).imp_right
    fun ⟨i, installation, hnumber, hinstallation, hstage⟩ =>
      ⟨i, installation, hnumber, hinstallations ▸ hinstallation, hstage⟩

/-- The dispatch of an installation is a call of `copyBot`. -/
theorem Tracks.dispatched_step (h : Tracks s active) {purchases : Purchases.State}
    {productIdentifier : String} {bot : ChatBot} (hheld : Bots.Held s.purchases.fs bot)
    (hfs : purchases.fs = s.purchases.fs)
    (hinstallations : purchases.installations =
      s.purchases.installations ++ [⟨productIdentifier, bot, .copying .guards⟩]) :
    ∃ following, (Bots.machine documentDirectory).next active (.copyBot bot) = some following ∧
      Tracks { s with
        purchases
        numbers := s.numbers ++ [s.dispatched]
        dispatched := s.dispatched + 1 } following := by
  refine ⟨{ active with calls := active.calls ++ [⟨bot, .guards⟩] }, ?_,
    h.fs.trans hfs.symm, h.running, h.bots, h.main, by simp [h.dispatched],
    by simp [hinstallations, h.length], ⟨?_, ?_⟩, ?_, ?_⟩
  · simp [Bots.machine, Bots.copyBot, h.running, h.fs, hheld]
  · refine List.nodup_append.mpr ⟨h.numbers.1, List.nodup_singleton _, ?_⟩
    rintro number hnumber other hother rfl
    have hlt := h.numbers.2 number hnumber
    rw [List.mem_singleton.mp hother] at hlt
    exact Nat.lt_irrefl _ hlt
  · intro number hnumber
    rcases List.mem_append.mp hnumber with hold | hnew
    · exact Nat.lt_succ_of_lt (h.numbers.2 number hold)
    · rw [List.mem_singleton.mp hnew]
      exact Nat.lt_succ_self _
  · intro i number installation stage hinstallation hnumber hstage
    replace hinstallation : (s.purchases.installations ++
        [⟨productIdentifier, bot, .copying .guards⟩])[i]? = some installation :=
      hinstallations ▸ hinstallation
    rcases Nat.lt_or_ge i s.purchases.installations.length with hold | hnew
    · rw [List.getElem?_append_left hold] at hinstallation
      rw [List.getElem?_append_left (h.length ▸ hold)] at hnumber
      have hcall := h.calls i number installation stage hinstallation hnumber hstage
      rw [List.getElem?_append_left (List.getElem?_eq_some_iff.mp hcall).1]
      exact hcall
    · rw [List.getElem?_append_right hnew] at hinstallation
      rw [List.getElem?_append_right (h.length ▸ hnew)] at hnumber
      obtain rfl := List.mem_singleton.mp (List.mem_of_getElem? hinstallation)
      obtain rfl := List.mem_singleton.mp (List.mem_of_getElem? hnumber)
      cases hstage
      simp [← h.dispatched]
  · intro number call hcall
    rcases Nat.lt_or_ge number active.calls.length with hold | hnew
    · rw [List.getElem?_append_left hold] at hcall
      refine (h.returned number call hcall).imp_right ?_
      rintro ⟨i, installation, hnumber, hinstallation, hstage⟩
      refine ⟨i, installation, ?_, ?_, hstage⟩
      · rw [List.getElem?_append_left (List.getElem?_eq_some_iff.mp hnumber).1]
        exact hnumber
      · rw [hinstallations,
          List.getElem?_append_left (List.getElem?_eq_some_iff.mp hinstallation).1]
        exact hinstallation
    · have hlt := (List.getElem?_eq_some_iff.mp hcall).1
      rw [List.length_append, List.length_singleton] at hlt
      obtain rfl : number = active.calls.length := by omega
      rw [List.getElem?_append_right hnew] at hcall
      obtain rfl := List.mem_singleton.mp (List.mem_of_getElem? hcall)
      exact .inr ⟨s.numbers.length, ⟨productIdentifier, bot, .copying .guards⟩,
        by simp [h.dispatched], by simp [hinstallations, h.length], rfl⟩

/-- A file operation of an installation is one of its call. -/
theorem Tracks.copied_step (h : Tracks s active) {purchases : Purchases.State} {i : Nat}
    {outcome : Outcome} {installation : Purchases.Installation} {stage : CopyStage}
    {effect : CopyEffect} (hinstallation : s.purchases.installations[i]? = some installation)
    (hstage : installation.stage = .copying stage)
    (hstep : copyStep installation.bot s.purchases.fs stage outcome = some effect)
    (hfs : purchases.fs = effect.fs)
    (hinstallations : purchases.installations = s.purchases.installations.set i
      { installation with stage := .copying effect.stage }) :
    ∃ number following, active.calls[number]? = some ⟨installation.bot, stage⟩ ∧
      (Bots.machine documentDirectory).next active (.step number outcome) = some following ∧
      Tracks { s with
        purchases
        main := s.main ++
          (s.numbers[i]?.bind fun number => effect.newBot.map (Block.mk number)).toList }
        following := by
  have hlt : i < s.numbers.length := by
    rw [h.length]
    exact (List.getElem?_eq_some_iff.mp hinstallation).1
  have hnumber := List.getElem?_eq_getElem hlt
  have hcall := h.calls i _ installation stage hinstallation hnumber hstage
  refine ⟨s.numbers[i], { active with
    fs := effect.fs
    calls := active.calls.set s.numbers[i] ⟨installation.bot, effect.stage⟩
    main := active.main ++ effect.newBot.toList }, hcall, ?_, hfs.symm, h.running, h.bots, ?_,
    by simp [h.dispatched], by simp [hinstallations, h.length], h.numbers, ?_, ?_⟩
  · simp [Bots.machine, Bots.step, hcall, h.fs, hstep]
  · rw [h.main, hnumber, List.map_append]
    cases effect.newBot <;> rfl
  · intro j number other point hother hother' hpoint
    replace hother : (s.purchases.installations.set i
        { installation with stage := .copying effect.stage })[j]? = some other :=
      hinstallations ▸ hother
    by_cases hij : i = j
    · subst hij
      rw [List.getElem?_set_self (List.getElem?_eq_some_iff.mp hinstallation).1] at hother
      obtain rfl := Option.some.inj hother
      cases hpoint
      obtain rfl := Option.some.inj (hnumber.symm.trans hother')
      exact List.getElem?_set_self (List.getElem?_eq_some_iff.mp hcall).1
    · rw [List.getElem?_set_ne hij] at hother
      -- another installation has another number
      have hne : s.numbers[i] ≠ number := by
        rintro rfl
        exact hij ((List.getElem?_inj hlt h.numbers.1).mp (hnumber.trans hother'.symm))
      exact (List.getElem?_set_ne hne).trans (h.calls j number other point hother hother' hpoint)
  · intro number call hmoved
    by_cases hsame : s.numbers[i] = number
    · subst hsame
      rw [List.getElem?_set_self (List.getElem?_eq_some_iff.mp hcall).1] at hmoved
      obtain rfl := Option.some.inj hmoved
      refine .inr ⟨i, { installation with stage := .copying effect.stage }, hnumber, ?_, rfl⟩
      rw [hinstallations,
        List.getElem?_set_self (List.getElem?_eq_some_iff.mp hinstallation).1]
    · rw [List.getElem?_set_ne hsame] at hmoved
      refine (h.returned number call hmoved).imp_right ?_
      rintro ⟨j, other, hother', hother, hpoint⟩
      refine ⟨j, other, hother', ?_, hpoint⟩
      have hij : i ≠ j := by
        rintro rfl
        exact hsame (Option.some.inj (hnumber.symm.trans hother'))
      rw [hinstallations, List.getElem?_set_ne hij]
      exact hother

/-- What follows `copyBot` is no step of the active bots. -/
theorem Tracks.proceeded (h : Tracks s active) {purchases : Purchases.State} {i : Nat}
    {failed : Bool} {installation : Purchases.Installation} {stage : Purchases.Stage}
    (hinstallation : s.purchases.installations[i]? = some installation)
    (hstage : Purchases.nextStage s.purchases failed installation.stage = some stage)
    (hfs : purchases.fs = s.purchases.fs)
    (hinstallations : purchases.installations =
      s.purchases.installations.set i { installation with stage }) :
    Tracks { s with purchases } active := by
  refine ⟨h.fs.trans hfs.symm, h.running, h.bots, h.main, h.dispatched,
    by simp [hinstallations, h.length], h.numbers, ?_, ?_⟩
  · intro j number other point hother hnumber hpoint
    replace hother : (s.purchases.installations.set i { installation with stage })[j]? =
        some other := hinstallations ▸ hother
    rw [List.getElem?_set] at hother
    split at hother
    · split at hother
      · obtain rfl := Option.some.inj hother
        exact absurd (hstage.trans (congrArg some hpoint)) Purchases.nextStage_ne_copying
      · cases hother
    · exact h.calls j number other point hother hnumber hpoint
  · intro number call hcall
    rcases h.returned number call hcall with hreturned | ⟨j, other, hnumber, hother, hpoint⟩
    · exact .inl hreturned
    · by_cases hij : i = j
      · -- what follows `copyBot` comes after its return
        subst hij
        obtain rfl := Option.some.inj (hinstallation.symm.trans hother)
        rw [hpoint] at hstage
        cases hcopied : call.stage with
        | returned copied => exact .inl ⟨copied, rfl⟩
        | _ => simp [hcopied, Purchases.nextStage] at hstage
      · refine .inr ⟨j, other, hnumber, ?_, hpoint⟩
        rw [hinstallations, List.getElem?_set_ne hij]
        exact hother

theorem Tracks.delivered (h : Tracks s active) {purchases : Purchases.State} {i : Nat}
    {installation : Purchases.Installation} {copied : Bool}
    (hreporting : s.purchases.installations[i]? = some installation)
    (hstage : installation.stage = .reporting copied)
    (hfs : purchases.fs = s.purchases.fs)
    (hinstallations : purchases.installations = s.purchases.installations.eraseIdx i) :
    Tracks { s with purchases, numbers := s.numbers.eraseIdx i } active := by
  refine ⟨h.fs.trans hfs.symm, h.running, h.bots, h.main, h.dispatched,
    by simp [hinstallations, List.length_eraseIdx, h.length],
    ⟨h.numbers.1.eraseIdx i, fun number hnumber =>
      h.numbers.2 number (List.mem_of_mem_eraseIdx hnumber)⟩, ?_, ?_⟩
  · intro j number installation stage hinstallation hnumber
    replace hinstallation : (s.purchases.installations.eraseIdx i)[j]? = some installation :=
      hinstallations ▸ hinstallation
    rw [List.getElem?_eraseIdx] at hinstallation hnumber
    split at hinstallation
    · rename_i hlt
      rw [if_pos hlt] at hnumber
      exact h.calls j number installation stage hinstallation hnumber
    · rename_i hge
      rw [if_neg hge] at hnumber
      exact h.calls (j + 1) number installation stage hinstallation hnumber
  · intro number call hcall
    refine (h.returned number call hcall).imp_right ?_
    rintro ⟨j, other, hnumber, hother, hpoint⟩
    rcases Nat.lt_trichotomy j i with hlt | rfl | hgt
    · refine ⟨j, other, ?_, ?_, hpoint⟩
      · rw [List.getElem?_eraseIdx_of_lt hlt]
        exact hnumber
      · rw [hinstallations, List.getElem?_eraseIdx_of_lt hlt]
        exact hother
    · obtain rfl := Option.some.inj (hreporting.symm.trans hother)
      simp [hstage] at hpoint
    · obtain ⟨k, rfl⟩ := Nat.exists_eq_add_of_lt hgt
      have hle : i ≤ i + k := Nat.le_add_right i k
      refine ⟨i + k, other, ?_, ?_, hpoint⟩
      · rw [List.getElem?_eraseIdx_of_ge hle]
        exact hnumber
      · rw [hinstallations, List.getElem?_eraseIdx_of_ge hle]
        exact hother

/-- What a step of a session is for the active bots, if it is anything: an installation calls
`copyBot` for a bot of the store, the file operations of its call are those of the installation,
and the main blocks are the same. -/
inductive Counterpart (urls : List URL) (s : State) (active : Bots.State) :
    Action → Bots.Action → Prop where
  | copyBot (bot : ChatBot) (hstore : FromStore active.fs urls bot) :
      Counterpart urls s active (.purchases .continue) (.copyBot bot)
  | step (i number : Nat) (outcome : Outcome) (installation : Purchases.Installation)
      (stage : CopyStage) (hinstallation : s.purchases.installations[i]? = some installation)
      (hstage : installation.stage = .copying stage)
      (hcall : active.calls[number]? = some ⟨installation.bot, stage⟩) :
      Counterpart urls s active (.purchases (.copy i outcome)) (.step number outcome)
  | runBlock : Counterpart urls s active .append .runBlock

variable (documentDirectory) in
/-- Each step of a session is one of the active bots, or none. -/
theorem Tracks.step (h : Tracks s active) (hurls : ∀ url ∈ urls, url ∈ fs.bundleUrls)
    (hreach : (machine fs bundleUrls localUrls urls).Reachable s) (hstep : Step s action t) :
    Tracks t active ∨ ∃ action' following, Counterpart urls s active action action' ∧
      (Bots.machine documentDirectory).next active action' = some following ∧
      Tracks t following := by
  cases hstep with
  | quiet action purchases hfs hinstallations => exact .inl (h.of_same hfs hinstallations)
  | dispatched purchases productIdentifier bot hbot hfs hinstallations =>
      have hpurchases := purchases_reachable hreach
      have hbundle := Purchases.bundle_of_reachable hpurchases
      have hstore := Purchases.from_store hpurchases hbot
      obtain ⟨following, hnext, htracks⟩ :=
        h.dispatched_step ((hstore.held hurls).congr_bundle hbundle) hfs hinstallations
      refine .inr ⟨_, following, .copyBot bot (hstore.congr_bundle hurls ?_), hnext, htracks⟩
      rw [h.fs, hbundle]
  | copied purchases i outcome installation stage effect hinstallation hstage hcopy hfs
      hinstallations =>
      obtain ⟨number, following, hcall, hnext, htracks⟩ :=
        h.copied_step hinstallation hstage hcopy hfs hinstallations
      exact .inr ⟨_, following, .step i number outcome installation stage hinstallation hstage
        hcall, hnext, htracks⟩
  | proceeded purchases i failed installation stage hinstallation hstage hfs hinstallations =>
      exact .inl (h.proceeded hinstallation hstage hfs hinstallations)
  | delivered purchases i installation copied hinstallation hstage hfs hinstallations =>
      exact .inl (h.delivered hinstallation hstage hfs hinstallations)
  | appended block rest hmain =>
      have hnext : Bots.runBlock active = some { active with
          bots := appendBot active.bots block.newBot
          main := rest.map Block.newBot } := by
        have hblocks : active.main = block.newBot :: rest.map Block.newBot := by
          rw [h.main, hmain, List.map_cons]
        simp [Bots.runBlock, hblocks]
      refine .inr ⟨_, _, .runBlock, hnext, ?_⟩
      exact ⟨h.fs, h.running, by rw [h.bots], rfl, h.dispatched, h.length, h.numbers, h.calls,
        h.returned⟩

/-- A launch leaves the active bots where its session begins. -/
theorem Tracks.launched {before launched : Bots.State} {outcome : Outcome}
    (hlaunch : Bots.launch before outcome bundleUrls localUrls = some launched) :
    launched.fs.bundleUrls = before.fs.bundleUrls ∧ bundleUrls ⊆ before.fs.bundleUrls ∧
      Tracks (.initial launched.fs bundleUrls localUrls) launched := by
  simp only [Bots.launch, Option.ite_none_right_eq_some, Option.some.injEq] at hlaunch
  obtain ⟨⟨hbundle, -⟩, rfl⟩ := hlaunch
  have hcreated := bundle_create_chatbots before.fs outcome
  -- the free bots are loaded before the folder is created, from the same bundle
  have hfree : freeBots before.fs bundleUrls =
      freeBots (before.fs.createChatbots outcome) bundleUrls := by
    refine List.filterMap_congr fun url hurl => ?_
    rw [init_bundle_congr hcreated (folder_of_mem_bundle_urls (hbundle.subset hurl))]
  refine ⟨bundle_urls_congr hcreated, hbundle.subset, ?_⟩
  exact {
    fs := rfl
    running := rfl
    bots := congrArg (· ++ localBots (before.fs.createChatbots outcome) localUrls) hfree
    main := rfl
    dispatched := rfl
    length := rfl
    numbers := ⟨.nil, by simp [State.initial]⟩
    calls := by simp [State.initial, Purchases.State.initial]
    returned := by simp [Bots.stop] }

section

variable {before launched : Bots.State} {outcome : Outcome}

/-- A condition on the steps of a session that gives one on the steps of the active bots. -/
def Gives (urls : List URL) (ok : State → Action → Bool)
    (okActive : Bots.State → Bots.Action → Bool) : Prop :=
  ∀ s active action action', Tracks s active → ok s action = true →
    Counterpart urls s active action action' → okActive active action' = true

theorem exists_tracked {ok : State → Action → Bool} {okActive : Bots.State → Bots.Action → Bool}
    (hgives : Gives urls ok okActive)
    (hlaunch : Bots.launch before outcome bundleUrls localUrls = some launched)
    (hurls : ∀ url ∈ urls, url ∈ bundleUrls)
    (h : ((machine launched.fs bundleUrls localUrls urls).restrict ok).Reachable s) :
    ∃ active, ((Bots.machine documentDirectory).restrict okActive).Reaches launched active ∧
      Tracks s active := by
  obtain ⟨hsame, hbundle, hlaunched⟩ := Tracks.launched hlaunch
  have hlisted : ∀ url ∈ urls, url ∈ launched.fs.bundleUrls := fun url hurl =>
    hsame ▸ hbundle (hurls url hurl)
  refine h.restrict_induction (P := fun s => ∃ active,
    ((Bots.machine documentDirectory).restrict okActive).Reaches launched active ∧
      Tracks s active) ⟨launched, .refl _, hlaunched⟩
    fun state action following hreach htracked hok hnext => ?_
  obtain ⟨active, hactive, htracked⟩ := htracked
  rcases htracked.step documentDirectory hlisted hreach (step_of_next hnext) with
    hsame | ⟨action', reached, hcounterpart, hnext, hreached⟩
  · exact ⟨active, hactive, hsame⟩
  · have hstep := Machine.restrict_next_eq_some.mpr
      ⟨hgives state active action action' htracked hok hcounterpart, hnext⟩
    exact ⟨reached, hactive.trans (.step hstep), hreached⟩

theorem keeps_apart_gives : Gives urls keepsApart Bots.keepsApart := by
  intro s active action action' htracked hok hcounterpart
  cases hcounterpart with
  | copyBot bot hstore => rfl
  | step i number outcome installation stage hinstallation hstage hcall =>
      simpa [keepsApart, Bots.keepsApart, hinstallation, hstage, hcall, htracked.fs] using hok
  | runBlock => rfl

/-- After a launch, a session in which purchases keep names apart is a run of the active bots that
does. -/
theorem session_refines
    (hlaunch : Bots.launch before outcome bundleUrls localUrls = some launched)
    (hurls : ∀ url ∈ urls, url ∈ bundleUrls)
    (h : ((machine launched.fs bundleUrls localUrls urls).restrict keepsApart).Reachable s) :
    ∃ active, ((Bots.machine documentDirectory).restrict Bots.keepsApart).Reaches launched active ∧
      active.fs = s.purchases.fs ∧ active.bots = s.bots ∧
      active.main = s.main.map Block.newBot := by
  obtain ⟨active, hactive, htracked⟩ := exists_tracked keeps_apart_gives hlaunch hurls h
  exact ⟨active, hactive, htracked.fs, htracked.bots, htracked.main⟩

end

/-- A session after the first launch, in which a bot is bought. -/
theorem exists_session :
    ∃ (before launched : Bots.State) (s : State),
      ((Bots.machine true).restrict Bots.keepsApart).Reachable before ∧
      Bots.launch before .ok [(ChatBot.named "a").url] [] = some launched ∧
      ((machine launched.fs [(ChatBot.named "a").url] [] [(ChatBot.named "a").url]).restrict
        keepsApart).Reachable s ∧ s.bots.map ChatBot.name = ["a"] := by
  obtain ⟨before, hbefore, hsession⟩ :=
    ((Bots.machine true).restrict Bots.keepsApart).exists_reachable
      [.update (FileSystem.fresh ["a"]).bundle]
      (fun before => (Bots.launch before .ok [(ChatBot.named "a").url] []).any fun launched =>
        (((machine launched.fs [(ChatBot.named "a").url] [] [(ChatBot.named "a").url]).restrict
          keepsApart).run (.initial launched.fs [(ChatBot.named "a").url] []) purchaseOfA).any
            fun s => s.bots.map ChatBot.name = ["a"]) (by decide)
  obtain ⟨launched, hlaunch, hrun⟩ := (Option.any_eq_true _ _).mp hsession
  obtain ⟨s, hs, hbots⟩ := (Option.any_eq_true _ _).mp hrun
  exact ⟨before, launched, s, hbefore, hlaunch, ⟨purchaseOfA, hs⟩, of_decide_eq_true hbots⟩

/-- The files and bots of that session are those of a run of the active bots. -/
theorem session_refines_run :
    ∃ (launched active : Bots.State) (s : State), s.bots.map ChatBot.name = ["a"] ∧
      ((Bots.machine true).restrict Bots.keepsApart).Reaches launched active ∧
      active.fs = s.purchases.fs ∧ active.bots = s.bots := by
  obtain ⟨before, launched, s, -, hlaunch, hs, hnames⟩ := exists_session
  obtain ⟨active, hactive, hfs, hbots, -⟩ :=
    @session_refines _ _ _ _ true _ _ _ hlaunch (by simp) hs
  exact ⟨launched, active, s, hnames, hactive, hfs, hbots⟩

/-- As long as names are kept apart, a session is in a state of the active bots in which they
are. -/
theorem exists_apart {before launched : Bots.State} {outcome : Outcome}
    (hbefore : ((Bots.machine documentDirectory).restrict Bots.keepsApart).Reachable before)
    (hlaunch : Bots.launch before outcome bundleUrls localUrls = some launched)
    (hurls : ∀ url ∈ urls, url ∈ bundleUrls)
    (h : ((machine launched.fs bundleUrls localUrls urls).restrict keepsApart).Reachable s) :
    ∃ active, Bots.Apart active ∧ Tracks s active := by
  have hlaunched : ((Bots.machine documentDirectory).restrict Bots.keepsApart).Reaches before
      launched := by
    refine @Machine.Reaches.step _ _ _ _ _ (.launch outcome bundleUrls localUrls) ?_
    exact Machine.restrict_next_eq_some.mpr ⟨rfl, hlaunch⟩
  obtain ⟨active, hactive, htracked⟩ := exists_tracked keeps_apart_gives hlaunch hurls h
  exact ⟨active, ((hbefore.trans hlaunched).trans hactive).restrict_induction (P := Bots.Apart)
    Bots.Apart.initial fun _ _ _ _ hstate hkeeps hnext => hstate.next hkeeps hnext, htracked⟩

/-- Whatever the life of the installation up to a launch, the active bots have distinct names in the
session that follows, as long as names are kept apart. -/
theorem session_names_distinct {before launched : Bots.State} {outcome : Outcome}
    (hbefore : ((Bots.machine documentDirectory).restrict Bots.keepsApart).Reachable before)
    (hlaunch : Bots.launch before outcome bundleUrls localUrls = some launched)
    (hurls : ∀ url ∈ urls, url ∈ bundleUrls)
    (h : ((machine launched.fs bundleUrls localUrls urls).restrict keepsApart).Reachable s) :
    (s.bots.map ChatBot.name).Nodup := by
  obtain ⟨active, hapart, htracked⟩ := exists_apart hbefore hlaunch hurls h
  exact htracked.bots ▸ hapart.bots

/-- The session in which a bot is bought. -/
theorem session_names_distinct_run :
    ∃ (before launched : Bots.State) (s : State),
      ((Bots.machine true).restrict Bots.keepsApart).Reachable before ∧
      Bots.launch before .ok [(ChatBot.named "a").url] [] = some launched ∧
      ((machine launched.fs [(ChatBot.named "a").url] [] [(ChatBot.named "a").url]).restrict
        keepsApart).Reachable s ∧
      s.bots.map ChatBot.name = ["a"] ∧ (s.bots.map ChatBot.name).Nodup := by
  obtain ⟨before, launched, s, hbefore, hlaunch, hs, hnames⟩ := exists_session
  exact ⟨before, launched, s, hbefore, hlaunch, hs, hnames,
    session_names_distinct hbefore hlaunch (by simp) hs⟩

end AiGramLib.Session
