import AiGramLib.Purchases.Effect

/-!
# What has been paid for is installed

A finished transaction is out of StoreKit's hands, so from then on the bot must be installed or
a copy of it under way (`State.secured`). `secures` lists what the environment has to do for
that: the handler must find the bot when it handles a purchased transaction, copies must land,
and the app must not end in the middle of one. `purchase_not_lost` is the result for quiescent
states, where no copy is under way.
-/

namespace AiGramLib.Purchases

open Transition

/-- `copyBot` has still its copy to make. -/
def Stage.beforeCopy : Stage → Bool
  | .copying stage => stage.beforeCopy
  | _ => false

/-- A purchased or restored transaction has been paid for. -/
def Transaction.isPaid (transaction : Transaction) : Bool :=
  transaction.transactionState == .purchased || transaction.transactionState == .restored

/-- The transaction is for this bot, and its product identifier leads back to the bot. -/
def Transaction.sells (transaction : Transaction) (bot : ChatBot) : Bool :=
  SurvivesMaps bot.name && transaction.productIdentifier == idOfBot bot

/-- The bot is installed, or a copy that installs it is to be made. -/
def State.secured (s : State) (bot : ChatBot) : Bool :=
  bot.isLocal s.fs ||
    s.installations.any fun installation =>
      installation.bot.sharesCopy bot && installation.stage.beforeCopy

/-- The bots that can be loaded from the bundle. -/
def bundleBots (fs : FileSystem) (urls : List URL) : List ChatBot :=
  (loads fs urls).reduceOption

/-- The steps that lose no purchase of a bot of the bundle. When a paid transaction for one is
handled, the bot is secured already, or the transaction is purchased and the handler finds it
among the loaded bots; every copy lands; and the app is not started again before the copies of
bots that are not installed have been made. -/
def secures (bundle : List ChatBot) (s : State) : Action → Bool
  | .continue =>
      match s.returning, s.handling with
      | none, transaction :: _ =>
          !transaction.isPaid || bundle.all fun bot =>
            !transaction.sells bot || s.secured bot ||
              transaction.transactionState == .purchased &&
                (purchasedBot s.loader.loadedBotsInStore transaction.productIdentifier).any
                  fun found => found.sharesCopy bot
      | _, _ => true
  | .copy i outcome =>
      match s.installations[i]? with
      | some ⟨_, bot, .copying stage⟩ => copyLands bot s.fs stage outcome
      | _ => true
  | .launch =>
      s.installations.all fun installation =>
        !installation.stage.beforeCopy || installation.bot.isLocal s.fs
  | _ => true

variable {s t : State} {action : Action} {bundle : List ChatBot} {bot : ChatBot}

theorem secured_iff : s.secured bot = true ↔
    bot.isLocal s.fs = true ∨ ∃ installation ∈ s.installations,
      installation.bot.sharesCopy bot = true ∧ installation.stage.beforeCopy = true := by
  simp [State.secured]

/-- A secured bot stays so if the files and the copies that are to be made stay. -/
theorem secured_of_same (h : s.secured bot = true) (hfs : t.fs = s.fs)
    (hinstallations : ∀ installation ∈ s.installations, installation.stage.beforeCopy = true →
      installation ∈ t.installations) : t.secured bot = true := by
  rw [secured_iff] at h ⊢
  rw [hfs]
  refine h.imp_right ?_
  rintro ⟨installation, hmem, hshares, hbefore⟩
  exact ⟨installation, hinstallations installation hmem hbefore, hshares, hbefore⟩

/-- Once `copyBot` has returned, the copy is not still to be made. -/
theorem not_beforeCopy_of_nextStage {failed : Bool} {stage following : Stage}
    (h : nextStage s failed stage = some following) : stage.beforeCopy = false := by
  cases stage with
  | copying point => cases point <;> first | rfl | cases h
  | _ => rfl

/-- Every step that `secures` allows keeps a secured bot secured. -/
theorem Effect.secured (h : Effect s action t) (hok : secures bundle s action = true)
    (hready : ∀ installation ∈ s.installations, installation.Ready s.fs)
    (hsecured : s.secured bot = true) : t.secured bot = true := by
  cases h with
  | quiet => exact hsecured
  | answered => exact hsecured
  | registered => exact hsecured
  | returned => exact hsecured
  | lost => exact hsecured
  | restored => exact hsecured
  | purchased =>
      exact secured_of_same hsecured rfl fun _ hmem _ => List.mem_append_left _ hmem
  | failed =>
      exact secured_of_same hsecured (report_fs _ _ _) fun _ hmem _ => by
        simpa using hmem
  | copied i outcome installation stage effect hinstallation hstage hstep =>
      obtain ⟨productIdentifier, copiedBot, point⟩ := installation
      obtain rfl : point = .copying stage := hstage
      have hlands : copyLands copiedBot s.fs stage outcome = true := by
        simpa [secures, hinstallation] using hok
      have hown : stage.Ready copiedBot s.fs :=
        hready _ (List.mem_of_getElem? hinstallation)
      have hmoved := List.mem_set (List.getElem?_eq_some_iff.mp hinstallation).1
        (Installation.mk productIdentifier copiedBot (.copying effect.stage))
      rw [secured_iff] at hsecured ⊢
      rcases hsecured with hlocal | ⟨other, hmem, hshares, hbefore⟩
      -- the bot is installed: at worst this copy has removed it and is about to put it back
      · rcases copy_step_keeps hstep hown hlocal with hkept | ⟨hcopy, hshares⟩
        · exact .inl hkept
        · exact .inr ⟨_, hmoved, hshares, by simp [Stage.beforeCopy, hcopy, CopyStage.beforeCopy]⟩
      -- the bot is to be copied: by another installation, or by this one
      · rcases mem_set_or_eq hmem hinstallation _ with hkept | rfl
        · exact .inr ⟨other, hkept, hshares, hbefore⟩
        · rcases copy_step_lands hstep hown hlands hbefore with hgoes | hlocal
          · exact .inr ⟨_, hmoved, hshares, hgoes⟩
          · exact .inl ((ChatBot.is_local_of_shares_copy _ hshares).symm.trans hlocal)
  | proceeded i failed installation stage hinstallation hstage =>
      refine secured_of_same hsecured rfl fun other hmem hbefore => ?_
      rcases mem_set_or_eq hmem hinstallation _ with hkept | rfl
      · exact hkept
      · rw [not_beforeCopy_of_nextStage hstage] at hbefore
        cases hbefore
  | delivered i installation copied hreturning hinstallation hstage =>
      refine secured_of_same hsecured (report_fs _ _ _) fun other hmem hbefore => ?_
      rw [report_installations]
      rcases mem_erase_idx_or_eq hmem hinstallation with hkept | rfl
      · exact hkept
      · rw [hstage] at hbefore
        cases hbefore
  | launched =>
      rw [secured_iff] at hsecured ⊢
      rcases hsecured with hlocal | ⟨installation, hmem, hshares, hbefore⟩
      · exact .inl hlocal
      · have hlocal : installation.bot.isLocal s.fs = true := by
          simpa [hbefore] using List.all_eq_true.mp hok installation hmem
        exact .inl ((ChatBot.is_local_of_shares_copy _ hshares).symm.trans hlocal)

/-- When a paid transaction for a bot of the bundle is handled, the bot is secured, or it is
about to be found and copied. -/
theorem secured_or_found {transaction : Transaction} {rest : List Transaction}
    (hok : secures bundle s .continue = true) (hreturning : s.returning = none)
    (hhandling : s.handling = transaction :: rest) (hpaid : transaction.isPaid = true)
    (hmem : bot ∈ bundle) (hsells : transaction.sells bot = true) :
    s.secured bot = true ∨ transaction.transactionState = .purchased ∧
      ∃ found, purchasedBot s.loader.loadedBotsInStore transaction.productIdentifier = some found ∧
        found.sharesCopy bot = true := by
  simp only [secures, hreturning, hhandling, hpaid, Bool.not_true, Bool.false_or,
    List.all_eq_true] at hok
  simpa [hsells, Option.any_eq_true] using hok bot hmem

/-- The bots of the bundle that finished transactions have paid for are secured. -/
def Delivered (bundle : List ChatBot) (s : State) : Prop :=
  ∀ transaction ∈ s.finished, transaction.isPaid = true → ∀ bot ∈ bundle,
    transaction.sells bot = true → s.secured bot = true

/-- A step that finishes one more transaction has to secure what this one has paid for. -/
theorem Delivered.finish {transaction : Transaction} (h : Delivered bundle s)
    (hkept : ∀ {bot}, s.secured bot = true → t.secured bot = true)
    (hfinished : t.finished = s.finished ++ [transaction])
    (hnew : transaction.isPaid = true → ∀ bot ∈ bundle, transaction.sells bot = true →
      t.secured bot = true) : Delivered bundle t := by
  intro other hmem hpaid bot hbot hsells
  rw [hfinished] at hmem
  rcases List.mem_append.mp hmem with hold | hlast
  · exact hkept (h other hold hpaid bot hbot hsells)
  · obtain rfl := List.mem_singleton.mp hlast
    exact hnew hpaid bot hbot hsells

theorem Delivered.step (h : Delivered bundle s) (heffect : Effect s action t)
    (hok : secures bundle s action = true)
    (hready : ∀ installation ∈ s.installations, installation.Ready s.fs) :
    Delivered bundle t := by
  have hkept {bot : ChatBot} (hsecured : s.secured bot = true) : t.secured bot = true :=
    heffect.secured hok hready hsecured
  have hold (transaction : Transaction) (hmem : transaction ∈ s.finished)
      (hpaid : transaction.isPaid = true) (bot : ChatBot) (hbot : bot ∈ bundle)
      (hsells : transaction.sells bot = true) : t.secured bot = true :=
    hkept (h transaction hmem hpaid bot hbot hsells)
  cases heffect with
  | quiet => exact hold
  | answered => exact hold
  | registered => exact hold
  | returned => exact hold
  | copied => exact hold
  | proceeded => exact hold
  | delivered =>
      intro transaction hmem
      rw [report_finished] at hmem
      exact hold transaction hmem
  | launched => exact hold
  | purchased transaction rest found hreturning hhandling hstate hfound =>
      refine h.finish hkept rfl fun hpaid bot hbot hsells => ?_
      rcases secured_or_found hok hreturning hhandling hpaid hbot hsells with
        hsecured | ⟨-, again, hagain, hshares⟩
      · exact hkept hsecured
      · obtain rfl : found = again := Option.some.inj (hfound.symm.trans hagain)
        exact secured_iff.mpr (.inr ⟨_, List.mem_append_right _ List.mem_cons_self, hshares, rfl⟩)
  | lost transaction rest hreturning hhandling hstate hnone =>
      refine h.finish hkept rfl fun hpaid bot hbot hsells => ?_
      rcases secured_or_found hok hreturning hhandling hpaid hbot hsells with
        hsecured | ⟨-, found, hfound, -⟩
      · exact hkept hsecured
      · rw [hnone] at hfound
        cases hfound
  | restored transaction rest hreturning hhandling hstate =>
      refine h.finish hkept rfl fun hpaid bot hbot hsells => ?_
      rcases secured_or_found hok hreturning hhandling hpaid hbot hsells with
        hsecured | ⟨hpurchased, -⟩
      · exact hkept hsecured
      · rw [hstate] at hpurchased
        cases hpurchased
  | failed transaction rest hreturning hhandling hstate =>
      refine h.finish hkept (report_finished _ _ _) fun hpaid => ?_
      simp [Transaction.isPaid, hstate] at hpaid

variable {fs : FileSystem} {urls : List URL}

theorem delivered_of_reachable
    (h : ((machine fs urls).restrict (secures (bundleBots fs urls))).Reachable s) :
    Delivered (bundleBots fs urls) s :=
  h.restrict_induction (P := Delivered (bundleBots fs urls)) (fun _ hmem => by cases hmem)
    fun _ _ _ hreach hdelivered hok hnext =>
      hdelivered.step (step_effect hnext) hok (ready_of_reachable hreach)

/-- No paid purchase is lost, in every run whose steps `secures` allows: a bot of the bundle
whose name survives the two maps is installed when everything has run, if a finished
transaction has paid for it. -/
theorem purchase_not_lost
    (h : ((machine fs urls).restrict (secures (bundleBots fs urls))).Reachable s)
    (hquiescent : s.Quiescent) :
    ∀ transaction ∈ s.finished,
      transaction.transactionState = .purchased ∨ transaction.transactionState = .restored →
      ∀ bot ∈ bundleBots fs urls, SurvivesMaps bot.name →
        transaction.productIdentifier = idOfBot bot → bot.isLocal s.fs = true := by
  intro transaction hmem hstate bot hbot hsurvives hid
  have hdelivered := delivered_of_reachable h
  have hpaid : transaction.isPaid = true := by
    simpa [Transaction.isPaid] using hstate
  have hsells : transaction.sells bot = true := by
    simp [Transaction.sells, hsurvives, hid]
  rcases secured_iff.mp (hdelivered transaction hmem hpaid bot hbot hsells) with
    hlocal | ⟨installation, hinstallation, -⟩
  · exact hlocal
  · rw [hquiescent.2.2] at hinstallation
    cases hinstallation

/-- A bot is bought after the store has been loaded, and is there when its copy has been made. -/
theorem purchase_not_lost_run : ∃ s : State,
    ((machine (.fresh ["a"]) [(ChatBot.named "a").url]).restrict
      (secures (bundleBots (.fresh ["a"]) [(ChatBot.named "a").url]))).Reachable s ∧
    s.Quiescent ∧ s.finished ≠ [] ∧
    ∀ transaction ∈ s.finished,
      transaction.transactionState = .purchased ∨ transaction.transactionState = .restored →
      ∀ bot ∈ bundleBots (.fresh ["a"]) [(ChatBot.named "a").url], SurvivesMaps bot.name →
        transaction.productIdentifier = idOfBot bot → bot.isLocal s.fs = true := by
  obtain ⟨s, hreach, hquiescent, hfinished⟩ :=
    ((machine (.fresh ["a"]) [(ChatBot.named "a").url]).restrict
      (secures (bundleBots (.fresh ["a"]) [(ChatBot.named "a").url]))).exists_reachable
      [.loader .botsInStore, .loader (.load (some "a") 3),
        .loader (.didReceive 0 [⟨idOfName "a"⟩]), .loader .runBlock, .loader .continue,
        .loader .continue, .setUserId 7, .buyBot (ChatBot.named "a"),
        .updatedTransactions [⟨0, some 0, idOfName "a", .purchased⟩], .continue,
        .copy 0 .ok, .copy 0 .ok, .copy 0 .ok, .copy 0 .ok, .copy 0 .ok, .proceed 0 false,
        .proceed 0 false, .proceed 0 false, .proceed 0 false, .deliver 0, .continue]
      (fun s => s.Quiescent ∧ s.finished ≠ []) (by decide)
  exact ⟨s, hreach, hquiescent, hfinished, purchase_not_lost hreach hquiescent⟩

/-- A purchased transaction that is delivered before the store has been loaded is finished, and
the bot is not installed. -/
theorem purchase_lost : ∃ s : State,
    (machine (.fresh ["a"]) [(ChatBot.named "a").url]).Reachable s ∧ s.Quiescent ∧
    ⟨0, none, idOfName "a", .purchased⟩ ∈ s.finished ∧
    ChatBot.named "a" ∈ bundleBots (.fresh ["a"]) [(ChatBot.named "a").url] ∧
    SurvivesMaps (ChatBot.named "a").name ∧ idOfName "a" = idOfBot (ChatBot.named "a") ∧
    (ChatBot.named "a").isLocal s.fs = false := by
  obtain ⟨s, hreach, hquiescent, hfinished, hlocal⟩ :=
    (machine (.fresh ["a"]) [(ChatBot.named "a").url]).exists_reachable
      [.updatedTransactions [⟨0, none, idOfName "a", .purchased⟩], .continue]
      (fun s => s.Quiescent ∧ ⟨0, none, idOfName "a", .purchased⟩ ∈ s.finished ∧
        (ChatBot.named "a").isLocal s.fs = false) (by decide)
  have hbundle : bundleBots (.fresh ["a"]) [(ChatBot.named "a").url] = [ChatBot.named "a"] := by
    decide
  exact ⟨s, hreach, hquiescent, hfinished, by simp [hbundle], by decide, rfl, hlocal⟩

end AiGramLib.Purchases
