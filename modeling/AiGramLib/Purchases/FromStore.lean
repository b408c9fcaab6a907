import AiGramLib.Bots.Machine
import AiGramLib.Bots.Relaunch
import AiGramLib.Purchases.Effect
import AiGramLib.Store.Sorted

/-!
# Installations are of bots of the store

A handler of a purchased transaction looks its bot up in the list that the store loader has left,
and that list is built from the bundle alone. So every installation copies a directory of the
bundle (`from_store_of_reachable`), and two installations with one destination copy the same one.
-/

namespace AiGramLib.Purchases

open Transition

variable {fs : FileSystem} {urls : List URL} {s t : State} {action : Action}

theorem report_loader (s : State) (productIdentifier : String) (value : Bool) :
    (report s productIdentifier value).loader = s.loader := by
  unfold report
  split <;> rfl

/-- The store loader makes its own steps only, until the app is launched again. -/
theorem loader_step (h : (machine fs urls).next s action = some t) :
    t.loader = s.loader ∨ t.loader = .initial ∨
      ∃ step, (Loader.machine (loads fs urls)).next s.loader step = some t.loader := by
  cases action with
  | loader action =>
      simp only [machine] at h
      split at h
      · obtain ⟨loader, hnext, h⟩ := Option.map_eq_some_iff.mp h
        cases h
        exact .inr (.inr ⟨action, hnext⟩)
      · cases h
  | launch =>
      cases h
      exact .inr (.inl rfl)
  | «continue» =>
      refine .inl ?_
      simp only [machine, continueStep] at h
      split at h <;> cases h
      · rfl
      · unfold handle
        split
        · rfl
        · dsimp only
          split <;> rfl
        · exact report_loader _ _ _
        · rfl
        · rfl
  | deliver i =>
      refine .inl ?_
      obtain ⟨installation, -, h⟩ := Option.bind_eq_some_iff.mp h
      split at h
      · split at h <;> cases h
        exact report_loader _ _ _
      · cases h
  | setUserId userId =>
      cases h
      exact .inl rfl
  | buyBot bot =>
      refine .inl ?_
      simp only [machine] at h
      split at h <;> cases h
      unfold buyBot
      dsimp only
      split
      · rfl
      · split <;> rfl
  | updatedTransactions transactions =>
      simp only [machine] at h
      split at h <;> cases h
      exact .inl rfl
  | copy i outcome =>
      obtain ⟨installation, -, h⟩ := Option.bind_eq_some_iff.mp h
      split at h
      · obtain ⟨effect, -, h⟩ := Option.bind_eq_some_iff.mp h
        cases h
        exact .inl rfl
      · cases h
  | proceed i failed =>
      obtain ⟨installation, -, h⟩ := Option.bind_eq_some_iff.mp h
      obtain ⟨stage, -, h⟩ := Option.bind_eq_some_iff.mp h
      cases h
      exact .inl rfl

/-- So does a run of purchases contain one of the store loader. -/
theorem loader_reachable (h : (machine fs urls).Reachable s) :
    (Loader.machine (loads fs urls)).Reachable s.loader := by
  refine h.invariant (P := fun s => (Loader.machine (loads fs urls)).Reachable s.loader)
    (show (Loader.machine (loads fs urls)).Reachable .initial from .refl _)
    fun state action following hreach hnext => ?_
  rcases loader_step hnext with hsame | hinitial | ⟨step, hstep⟩
  · exact hsame ▸ hreach
  · rw [hinitial]
    exact show (Loader.machine (loads fs urls)).Reachable .initial from .refl _
  · exact hreach.trans (.step hstep)

/-- A bot that is in the store of this bundle. -/
def FromStore (fs : FileSystem) (urls : List URL) (bot : ChatBot) : Prop :=
  ∃ url ∈ urls, ChatBot.init fs url = some { bot with index := 0 }

/-- The bots that a handler finds are those of the store. -/
theorem from_store (h : (machine fs urls).Reachable s) {bot : ChatBot}
    (hbot : bot ∈ s.loader.loadedBotsInStore) : FromStore fs urls bot := by
  obtain ⟨loaded, hloaded, index, rfl⟩ := Loader.loaded_of_stored (loader_reachable h) hbot
  simp only [loadedBots, loads, List.filterMap_map, List.mem_filterMap] at hloaded
  obtain ⟨url, hurl, hfound⟩ := hloaded
  obtain ⟨hinit, -⟩ := Option.filter_eq_some_iff.mp hfound
  refine ⟨url, hurl, ?_⟩
  rw [hinit, ← (ChatBot.located_of_init hinit).2.1]

/-- Every step leaves installations of bots of the store. -/
theorem Effect.from_store (h : Effect s action t) (hreach : (machine fs urls).Reachable s)
    (hstore : ∀ installation ∈ s.installations, FromStore fs urls installation.bot) :
    ∀ installation ∈ t.installations, FromStore fs urls installation.bot := by
  cases h with
  | quiet | answered | registered | returned | lost | restored => exact hstore
  | failed => simpa using hstore
  | purchased transaction rest bot hreturning hhandling hstate hbot =>
      intro installation hmem
      rcases List.mem_append.mp hmem with hold | hnew
      · exact hstore installation hold
      · obtain ⟨nameSeq, -, hfound⟩ := Option.bind_eq_some_iff.mp hbot
        rw [List.mem_singleton.mp hnew]
        exact Purchases.from_store hreach (List.mem_of_find?_eq_some hfound)
  | copied i outcome installation stage effect hinstallation =>
      intro other hmem
      rcases List.mem_or_eq_of_mem_set hmem with hold | rfl
      · exact hstore other hold
      · exact hstore installation (List.mem_of_getElem? hinstallation)
  | proceeded i failed installation stage hinstallation =>
      intro other hmem
      rcases List.mem_or_eq_of_mem_set hmem with hold | rfl
      · exact hstore other hold
      · exact hstore installation (List.mem_of_getElem? hinstallation)
  | delivered =>
      intro installation hmem
      rw [report_installations] at hmem
      exact hstore installation (List.mem_of_mem_eraseIdx hmem)
  | launched =>
      intro installation hmem
      cases hmem

theorem from_store_of_reachable (h : (machine fs urls).Reachable s) :
    ∀ installation ∈ s.installations, FromStore fs urls installation.bot :=
  h.induction (P := fun s => ∀ installation ∈ s.installations, FromStore fs urls installation.bot)
    (fun installation hmem => by cases hmem)
    fun _ _ _ hreach hstore hnext => (step_effect hnext).from_store hreach hstore

section

variable {bot : ChatBot}

/-- What is in the store depends on the bundle only. -/
theorem FromStore.congr_bundle {other : FileSystem} (h : FromStore fs urls bot)
    (hurls : ∀ url ∈ urls, url ∈ fs.bundleUrls) (hbundle : other.bundle = fs.bundle) :
    FromStore other urls bot := by
  obtain ⟨url, hurl, hinit⟩ := h
  have hfolder := folder_of_mem_bundle_urls (hurls url hurl)
  exact ⟨url, hurl, (init_bundle_congr hbundle hfolder).trans hinit⟩

theorem FromStore.installable (h : FromStore fs urls bot)
    (hurls : ∀ url ∈ urls, url ∈ fs.bundleUrls) (hfree : bot.isFree = false) :
    Installable fs bot := by
  obtain ⟨url, hurl, hinit⟩ := h
  have hlocated : bot.url = url := (ChatBot.located_of_init hinit).1
  exact ⟨hlocated ▸ hurls url hurl, hlocated ▸ hinit, hfree⟩

/-- The bots of the store are held while the bundle is installed. -/
theorem FromStore.held (h : FromStore fs urls bot)
    (hurls : ∀ url ∈ urls, url ∈ fs.bundleUrls) : Bots.Held fs bot := by
  obtain ⟨url, hurl, hinit⟩ := h
  obtain ⟨hlocated, -, hcomponents⟩ := ChatBot.located_of_init hinit
  obtain rfl : bot.url = url := hlocated
  exact ⟨hcomponents, (FileSystem.mem_bundle_urls.mp (hurls _ hurl)).2.2, fun _ => hinit⟩

end

/-- No step changes the bundle. -/
theorem Effect.bundle (h : Effect s action t) : t.fs.bundle = s.fs.bundle := by
  cases h with
  | failed => simp
  | delivered => simp
  | copied i outcome installation stage effect hinstallation hstage hstep =>
      exact copy_step_bundle hstep
  | _ => rfl

theorem bundle_of_reachable (h : (machine fs urls).Reachable s) : s.fs.bundle = fs.bundle :=
  h.invariant (P := fun s => s.fs.bundle = fs.bundle) rfl
    fun _ _ _ hbundle hnext => (step_effect hnext).bundle.trans hbundle

end AiGramLib.Purchases
