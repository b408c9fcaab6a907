import AiGramLib.Purchases.Effect

/-!
# A result of a purchase tells the truth

The value that a completion of `buyBot` gets is computed before it is reported: `true` when a
copy has been reloaded, `false` when one has failed. `Truthful` relates the results that are on
their way, and the bots that become installed meanwhile, to the completions that wait for them.
It is kept by the steps that are `undisturbed`, and `answers_truthful` is the result.
-/

namespace AiGramLib.Purchases

open Transition

/-- The result that an installation will report. -/
def Stage.captured : Stage → Option Bool
  | .copying (.returned copied) => some copied
  | .copying _ => none
  | .enabling | .refreshing | .publishing => some true
  | .reporting copied => some copied

/-- The copy is in place: `copyBot` has only to reload it, or has returned `true`. -/
def Stage.landed : Stage → Bool
  | .copying .reload => true
  | stage => stage.captured == some true

/-- Nobody waits for a result about this destination but under this product identifier, and
the results that are on their way are not awaited for it. -/
def unobserved (s : State) (productIdentifier : String) (destination : URL) : Bool :=
  (s.buyCompletions.keys.all fun other =>
    other == productIdentifier ||
      (s.waiting other).all fun completion => completion.bot.destinationUrl != destination) &&
  s.installations.all fun installation =>
    installation.stage.captured.isNone ||
      (s.waiting installation.productIdentifier).all fun completion =>
        completion.bot.destinationUrl != destination

/-- The steps that do not make a result wrong. No payment is added for a product while `true`
is on its way for it. A failed transaction is handled for a stored completion only if no copy
for the product is in place. While somebody waits for the result of a `copyBot`, it fails only
over an empty destination, and who waits has bought a bot that shares the copy; and a directory
does not appear or disappear while it is observed by others. -/
def undisturbed (s : State) : Action → Bool
  | .buyBot bot =>
      !registers s bot || s.installations.all fun installation =>
        installation.productIdentifier != idOfBot bot ||
          installation.stage.captured != some true
  | .continue =>
      match s.returning, s.handling with
      | none, transaction :: _ =>
          transaction.transactionState != .failed ||
            (s.buyCompletions.lookup transaction.productIdentifier).isNone ||
            s.installations.all fun installation =>
              installation.productIdentifier != transaction.productIdentifier ||
                !installation.stage.landed
      | _, _ => true
  | .copy i outcome =>
      match s.installations[i]? with
      | some ⟨productIdentifier, bot, .copying stage⟩ =>
          ((s.waiting productIdentifier).all fun completion =>
            copyFailsClean bot s.fs stage outcome && bot.sharesCopy completion.bot) &&
          (!changesCopy bot s.fs stage || unobserved s productIdentifier bot.destinationUrl)
      | _ => true
  | _ => true

variable {s t : State} {action : Action}

/-- The results given so far were true. A bot that somebody waits for and that is installed has
been installed under its product identifier, and a result that is on its way is true of the bot
that is waited for. -/
structure Truthful (s : State) : Prop where
  answers : ∀ answer ∈ s.answers, answer.value = answer.isLocal
  installed : ∀ {productIdentifier completion}, s.waiting productIdentifier = some completion →
    completion.bot.isLocal s.fs = true →
    ∃ installation ∈ s.installations,
      installation.productIdentifier = productIdentifier ∧ installation.stage.landed = true
  captured : ∀ {installation copied completion}, installation ∈ s.installations →
    installation.stage.captured = some copied →
    s.waiting installation.productIdentifier = some completion →
    copied = completion.bot.isLocal s.fs

/-- After `copyBot` has returned its result is handed on. -/
theorem captured_nextStage {failed : Bool} {stage following : Stage}
    (h : nextStage s failed stage = some following) :
    following.captured = stage.captured ∧ following.landed = stage.landed := by
  unfold nextStage at h
  repeat' split at h
  all_goals cases h
  all_goals exact ⟨rfl, rfl⟩

/-- A report of a true value leaves the account true. -/
theorem Truthful.report {productIdentifier : String} {value : Bool}
    (hreturning : s.returning = none)
    (hanswers : ∀ answer ∈ s.answers, answer.value = answer.isLocal)
    (hvalue : ∀ {completion}, s.waiting productIdentifier = some completion →
      value = completion.bot.isLocal s.fs)
    (hinstalled : ∀ {other completion}, other ≠ productIdentifier →
      s.waiting other = some completion → completion.bot.isLocal s.fs = true →
      ∃ installation ∈ s.installations,
        installation.productIdentifier = other ∧ installation.stage.landed = true)
    (hcaptured : ∀ {installation copied completion}, installation ∈ s.installations →
      installation.stage.captured = some copied →
      s.waiting installation.productIdentifier = some completion →
      copied = completion.bot.isLocal s.fs) :
    Truthful (report s productIdentifier value) := by
  refine ⟨?_, ?_, ?_⟩
  · intro answer hanswer
    unfold Purchases.report at hanswer
    split at hanswer
    · rename_i completion hlookup
      rcases List.mem_append.mp hanswer with hold | hnew
      · exact hanswers answer hold
      · rw [List.mem_singleton.mp hnew]
        exact hvalue (by rw [waiting_of_returning_none hreturning, hlookup])
    · exact hanswers answer hanswer
  · intro other completion hwaiting hlocal
    rw [waiting_report hreturning] at hwaiting
    rw [report_fs] at hlocal
    rw [report_installations]
    split at hwaiting
    · cases hwaiting
    · rename_i hother
      exact hinstalled hother hwaiting hlocal
  · intro installation copied completion hmem hcopied hwaiting
    rw [waiting_report hreturning] at hwaiting
    rw [report_fs]
    rw [report_installations] at hmem
    split at hwaiting
    · cases hwaiting
    · exact hcaptured hmem hcopied hwaiting

/-- What `undisturbed` says of a step of `copyBot`. -/
theorem undisturbed_copy {i : Nat} {outcome : Outcome} {productIdentifier : String}
    {bot : ChatBot} {stage : CopyStage}
    (hok : undisturbed s (.copy i outcome) = true)
    (hinstallation : s.installations[i]? = some ⟨productIdentifier, bot, .copying stage⟩) :
    (∀ {completion}, s.waiting productIdentifier = some completion →
      copyFailsClean bot s.fs stage outcome = true ∧ bot.sharesCopy completion.bot = true) ∧
    (changesCopy bot s.fs stage = true →
      unobserved s productIdentifier bot.destinationUrl = true) := by
  simp only [undisturbed, hinstallation, Bool.and_eq_true, Option.all_eq_true] at hok
  obtain ⟨hwaited, hchanges⟩ := hok
  refine ⟨fun {completion} hwaiting => hwaited completion hwaiting, fun hsome => ?_⟩
  simpa [hsome] using hchanges

/-- An unobserved destination is waited for under one product identifier only. -/
theorem eq_of_unobserved {productIdentifier other : String} {destination : URL}
    {completion : Completion} (h : unobserved s productIdentifier destination = true)
    (hwaiting : s.waiting other = some completion)
    (hdestination : completion.bot.destinationUrl = destination) : other = productIdentifier := by
  simp only [unobserved, Bool.and_eq_true, List.all_eq_true, Bool.or_eq_true, beq_iff_eq] at h
  have hkey : other ∈ s.buyCompletions.keys := by
    rw [← AList.mem_keys, ← AList.lookup_isSome]
    unfold State.waiting at hwaiting
    split at hwaiting
    · cases hwaiting
    · simp [hwaiting]
  rcases h.1 other hkey with heq | hall
  · exact heq
  · simp [hwaiting, hdestination] at hall

/-- No result on its way is awaited for an unobserved destination. -/
theorem ne_of_unobserved {productIdentifier : String} {destination : URL}
    {installation : Installation} {copied : Bool} {completion : Completion}
    (h : unobserved s productIdentifier destination = true)
    (hmem : installation ∈ s.installations) (hcopied : installation.stage.captured = some copied)
    (hwaiting : s.waiting installation.productIdentifier = some completion) :
    completion.bot.destinationUrl ≠ destination := by
  simp only [unobserved, Bool.and_eq_true, List.all_eq_true, Bool.or_eq_true] at h
  simpa [hcopied, hwaiting] using h.2 installation hmem

/-- A file operation of `copyBot` that is undisturbed leaves the account true. -/
theorem Truthful.copied {i : Nat} {outcome : Outcome} {productIdentifier : String}
    {bot : ChatBot} {stage : CopyStage} {effect : CopyEffect} (h : Truthful s)
    (hok : undisturbed s (.copy i outcome) = true)
    (hinstallation : s.installations[i]? = some ⟨productIdentifier, bot, .copying stage⟩)
    (hready : stage.Ready bot s.fs) (hstep : copyStep bot s.fs stage outcome = some effect) :
    Truthful { s with
      fs := effect.fs
      installations :=
        s.installations.set i ⟨productIdentifier, bot, .copying effect.stage⟩ } := by
  obtain ⟨hwaited, hunobserved⟩ := undisturbed_copy hok hinstallation
  have hmoved := List.mem_set (List.getElem?_eq_some_iff.mp hinstallation).1
    (Installation.mk productIdentifier bot (.copying effect.stage))
  refine ⟨h.answers, ?_, ?_⟩
  · intro other completion hwaiting hlocal
    replace hwaiting : s.waiting other = some completion := hwaiting
    cases hbefore : completion.bot.isLocal s.fs with
    | true =>
        obtain ⟨installation, hmem, hid, hlanded⟩ := h.installed hwaiting hbefore
        rcases mem_set_or_eq hmem hinstallation _ with hkept | rfl
        · exact ⟨installation, hkept, hid, hlanded⟩
        · -- the copy itself was in place: reloading it succeeds, since the bot is installed
          obtain rfl : productIdentifier = other := hid
          refine ⟨_, hmoved, rfl, ?_⟩
          cases stage with
          | reload =>
              obtain ⟨hclean, hshares⟩ := hwaited hwaiting
              obtain ⟨copied, hreturned⟩ := copy_step_reload hstep
              have hcopied : copied = true := by
                rw [copy_step_returned hstep hready hclean hreturned,
                  ChatBot.is_local_of_shares_copy _ hshares]
                exact hlocal
              simp [Stage.landed, Stage.captured, hreturned, hcopied]
          | returned => cases hstep
          | _ => cases hlanded
    | false =>
        -- this step has put the directory in place, and its call will report it
        obtain ⟨hchanges, hdestination⟩ :=
          copy_step_changes hstep completion.bot (by simp [hbefore, hlocal])
        obtain rfl := eq_of_unobserved (hunobserved hchanges) hwaiting hdestination
        have hreload := copy_step_installs hstep hready (hwaited hwaiting).1 hbefore hlocal
        exact ⟨_, hmoved, rfl, by simp [Stage.landed, hreload]⟩
  · intro installation copied completion hmem hcopied hwaiting
    replace hwaiting : s.waiting installation.productIdentifier = some completion := hwaiting
    rcases List.mem_or_eq_of_mem_set hmem with hold | rfl
    · rw [h.captured hold hcopied hwaiting]
      exact (copy_step_is_local hstep fun hchanges =>
        ne_of_unobserved (hunobserved hchanges) hold hcopied hwaiting).symm
    · have hreturned : effect.stage = .returned copied := by
        cases hstage : effect.stage with
        | returned => simpa [Stage.captured, hstage] using hcopied
        | _ => simp [Stage.captured, hstage] at hcopied
      obtain ⟨hclean, hshares⟩ := hwaited hwaiting
      rw [copy_step_returned hstep hready hclean hreturned]
      exact ChatBot.is_local_of_shares_copy _ hshares

/-- Every step that is undisturbed leaves the account true. -/
theorem Truthful.step (h : Truthful s) (heffect : Effect s action t)
    (hok : undisturbed s action = true)
    (hready : ∀ installation ∈ s.installations, installation.Ready s.fs) : Truthful t := by
  cases heffect with
  | quiet => exact ⟨h.answers, h.installed, h.captured⟩
  | answered bot =>
      refine ⟨?_, h.installed, h.captured⟩
      intro answer hanswer
      rcases List.mem_append.mp hanswer with hold | hnew
      · exact h.answers answer hold
      · rw [List.mem_singleton.mp hnew]
  | registered bot hregisters =>
      have hlocal : bot.isLocal s.fs = false := by
        simp only [registers, Bool.and_eq_true, Bool.not_eq_true'] at hregisters
        exact hregisters.1
      refine ⟨h.answers, ?_, ?_⟩
      · intro other completion hwaiting hinstalled
        rcases waiting_registered hwaiting with ⟨-, rfl⟩ | hold
        · rw [hlocal] at hinstalled
          cases hinstalled
        · exact h.installed hold hinstalled
      · intro installation copied completion hmem hcopied hwaiting
        rcases waiting_registered hwaiting with ⟨hid, rfl⟩ | hold
        -- the bot is not installed, so only a result `true` on its way would be wrong
        · have hfalse : installation.stage.captured ≠ some true := by
            simp only [undisturbed, hregisters, Bool.not_true, Bool.false_or,
              List.all_eq_true] at hok
            simpa [hid] using hok installation hmem
          rw [hcopied] at hfalse
          simpa [hlocal] using hfalse
        · exact h.captured hmem hcopied hold
  | returned productIdentifier hreturning =>
      refine ⟨h.answers, ?_, ?_⟩
      · intro other completion hwaiting
        rw [waiting_returned hreturning] at hwaiting
        exact h.installed hwaiting
      · intro installation copied completion hmem hcopied hwaiting
        rw [waiting_returned hreturning] at hwaiting
        exact h.captured hmem hcopied hwaiting
  | purchased transaction rest bot =>
      refine ⟨h.answers, ?_, ?_⟩
      · intro other completion hwaiting hlocal
        obtain ⟨installation, hmem, hinstallation⟩ := h.installed hwaiting hlocal
        exact ⟨installation, List.mem_append_left _ hmem, hinstallation⟩
      · intro installation copied completion hmem hcopied hwaiting
        rcases List.mem_append.mp hmem with hold | hnew
        · exact h.captured hold hcopied hwaiting
        · rw [List.mem_singleton.mp hnew] at hcopied
          cases hcopied
  | lost => exact ⟨h.answers, h.installed, h.captured⟩
  | restored => exact ⟨h.answers, h.installed, h.captured⟩
  | failed transaction rest hreturning hhandling hstate =>
      refine Truthful.report hreturning h.answers ?_ (fun _ => h.installed) h.captured
      intro completion hwaiting
      replace hwaiting : s.waiting transaction.productIdentifier = some completion := hwaiting
      by_contra hlocal
      -- an installed bot would have been installed by a copy for the product
      obtain ⟨installation, hmem, hid, hlanded⟩ := h.installed hwaiting (by simpa using hlocal)
      rw [waiting_of_returning_none hreturning] at hwaiting
      simp only [undisturbed, hreturning, hhandling, hstate, hwaiting, bne_self_eq_false,
        Option.isNone_some, Bool.false_or, List.all_eq_true] at hok
      simpa [hid, hlanded] using hok installation hmem
  | copied i outcome installation stage effect hinstallation hstage hstep =>
      obtain ⟨productIdentifier, bot, point⟩ := installation
      obtain rfl : point = .copying stage := hstage
      exact h.copied hok hinstallation (hready _ (List.mem_of_getElem? hinstallation)) hstep
  | proceeded i failed installation stage hinstallation hstage =>
      obtain ⟨hcaptured, hlanded⟩ := captured_nextStage hstage
      refine ⟨h.answers, ?_, ?_⟩
      · intro other completion hwaiting hlocal
        obtain ⟨installed, hmem, hid, hinstalled⟩ := h.installed hwaiting hlocal
        rcases mem_set_or_eq hmem hinstallation _ with hkept | rfl
        · exact ⟨installed, hkept, hid, hinstalled⟩
        · exact ⟨_, List.mem_set (List.getElem?_eq_some_iff.mp hinstallation).1 _, hid,
            hlanded.trans hinstalled⟩
      · intro other copied completion hmem hcopied hwaiting
        rcases List.mem_or_eq_of_mem_set hmem with hold | rfl
        · exact h.captured hold hcopied hwaiting
        · exact h.captured (List.mem_of_getElem? hinstallation) (hcaptured.symm.trans hcopied)
            hwaiting
  | delivered i installation copied hreturning hinstallation hstage =>
      have hmem := List.mem_of_getElem? hinstallation
      refine Truthful.report hreturning h.answers ?_ ?_ ?_
      · intro completion hwaiting
        exact h.captured hmem (by rw [hstage]; rfl) hwaiting
      · intro other completion hother hwaiting hlocal
        obtain ⟨installed, hinstalled, hid, hlanded⟩ := h.installed hwaiting hlocal
        rcases mem_erase_idx_or_eq hinstalled hinstallation with hkept | rfl
        · exact ⟨installed, hkept, hid, hlanded⟩
        · exact absurd hid.symm hother
      · intro other copied completion hkept hcopied hwaiting
        exact h.captured (List.mem_of_mem_eraseIdx hkept) hcopied hwaiting
  | launched =>
      refine ⟨h.answers, ?_, ?_⟩
      · intro other completion hwaiting
        cases hwaiting
      · intro installation copied completion hmem
        cases hmem

variable {fs : FileSystem} {urls : List URL}

theorem truthful_initial (fs : FileSystem) : Truthful (.initial fs) where
  answers _ hmem := by cases hmem
  installed hwaiting := by cases hwaiting
  captured hmem := by cases hmem

/-- Whenever a completion of `buyBot` is invoked, its argument says whether the bot is
installed at that moment, in every run whose steps are `undisturbed`. -/
theorem answers_truthful (h : ((machine fs urls).restrict undisturbed).Reachable s) :
    ∀ answer ∈ s.answers, answer.value = answer.isLocal := by
  have htruthful : Truthful s :=
    h.restrict_induction (truthful_initial fs) fun _ _ _ hreach htruthful hok hnext =>
      htruthful.step (step_effect hnext) hok (ready_of_reachable hreach)
  exact htruthful.answers

/-- A purchase, and a second one of the bot that is installed by then. -/
theorem answers_truthful_run : ∃ s : State,
    ((machine (.fresh ["a"]) [(ChatBot.named "a").url]).restrict undisturbed).Reachable s ∧
    s.answers = [⟨0, true, true⟩, ⟨1, true, true⟩] ∧
    ∀ answer ∈ s.answers, answer.value = answer.isLocal := by
  obtain ⟨s, hreach, hanswers⟩ :=
    ((machine (.fresh ["a"]) [(ChatBot.named "a").url]).restrict undisturbed).exists_reachable
      [.loader .botsInStore, .loader (.load (some "a") 3),
        .loader (.didReceive 0 [⟨idOfName "a"⟩]), .loader .runBlock, .loader .continue,
        .loader .continue, .setUserId 7, .buyBot (ChatBot.named "a"),
        .updatedTransactions [⟨0, some 0, idOfName "a", .purchased⟩], .continue,
        .copy 0 .ok, .copy 0 .ok, .copy 0 .ok, .copy 0 .ok, .copy 0 .ok, .proceed 0 false,
        .proceed 0 false, .proceed 0 false, .proceed 0 false, .deliver 0, .continue,
        .buyBot (ChatBot.named "a")]
      (fun s => s.answers = [⟨0, true, true⟩, ⟨1, true, true⟩]) (by decide)
  exact ⟨s, hreach, hanswers, answers_truthful hreach⟩

/-- When the copy cannot be reloaded the purchase is reported as failed, and the bot is
installed. -/
theorem answer_not_truthful : ∃ s : State,
    (machine (.fresh ["a"]) [(ChatBot.named "a").url]).Reachable s ∧
    s.answers = [⟨0, false, true⟩] :=
  (machine (.fresh ["a"]) [(ChatBot.named "a").url]).exists_reachable
    [.loader .botsInStore, .loader (.load (some "a") 3),
      .loader (.didReceive 0 [⟨idOfName "a"⟩]), .loader .runBlock, .loader .continue,
      .loader .continue, .buyBot (ChatBot.named "a"),
      .updatedTransactions [⟨0, some 0, idOfName "a", .purchased⟩], .continue,
      .copy 0 .ok, .copy 0 .ok, .copy 0 .ok, .copy 0 .ok, .copy 0 (.fails none), .proceed 0 false,
      .deliver 0]
    (fun s => s.answers = [⟨0, false, true⟩]) (by decide)

end AiGramLib.Purchases
