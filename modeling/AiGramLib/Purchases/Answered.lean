import AiGramLib.Library.Slots
import AiGramLib.Purchases.Effect

/-!
# Every purchase is answered

The completions of `buyBot` wait in `buyCompletions` under their product identifiers, a table
of callbacks as in `Slots`: `State.slots` is that account of a state, and a step of the code
answers, registers or serves in it. The two ways to lose a completion are excluded by
`accountable`, and `answered_once` says that there is no third.
-/

namespace AiGramLib.Purchases

open Transition

/-- The account of the calls of `buyBot`. -/
def State.slots (s : State) : Slots.State String where
  calls := s.calls
  waiting productIdentifier := (s.waiting productIdentifier).map Completion.call
  answered := s.answers.map Answer.call

/-- The steps of one run of the app that lose no completion: a payment is added only if no
completion is stored under the product identifier, and the handler of a purchased transaction
finds the bot if one is. -/
def accountable (s : State) : Action → Bool
  | .buyBot bot =>
      !registers s bot || (s.buyCompletions.lookup (idOfBot bot)).isNone
  | .continue =>
      match s.returning, s.handling with
      | none, transaction :: _ =>
          transaction.transactionState != .purchased ||
            (s.buyCompletions.lookup transaction.productIdentifier).isNone ||
            (purchasedBot s.loader.loadedBotsInStore transaction.productIdentifier).isSome
      | _, _ => true
  | .launch => false
  | _ => true

variable {s t : State} {action : Action}

/-- A report serves the completion that waits under its product identifier. -/
theorem slots_report (h : s.returning = none) (productIdentifier : String) (value : Bool) :
    (report s productIdentifier value).slots = s.slots.serve productIdentifier := by
  have hwaiting : (report s productIdentifier value).slots.waiting =
      (s.slots.serve productIdentifier).waiting := by
    funext other
    simp only [State.slots, Slots.State.serve, waiting_report h, Function.update_apply]
    split <;> rfl
  have hrest : (report s productIdentifier value).slots.calls = s.slots.calls ∧
      (report s productIdentifier value).slots.answered =
        (s.slots.serve productIdentifier).answered := by
    simp only [State.slots, Slots.State.serve, waiting_of_returning_none h]
    unfold report
    split <;> rename_i hlookup <;> simp [hlookup]
  exact congr (congr (congrArg Slots.State.mk hrest.1) hwaiting) hrest.2

/-- StoreKit or an installation has still something to report under a product identifier. -/
def State.Pursued (s : State) (productIdentifier : String) : Prop :=
  (∃ payment ∈ s.payments, payment.productIdentifier = productIdentifier) ∨
    ∃ installation ∈ s.installations, installation.productIdentifier = productIdentifier

/-- Under another product identifier a transaction ends no payment. -/
theorem State.Pursued.filter {transaction : Transaction} {productIdentifier : String}
    (h : s.Pursued productIdentifier) (hne : productIdentifier ≠ transaction.productIdentifier)
    (hpayments : t.payments = s.payments.filter fun payment => !transaction.ends payment)
    (hinstallations : ∀ installation ∈ s.installations, installation ∈ t.installations) :
    t.Pursued productIdentifier := by
  rcases h with ⟨payment, hmem, rfl⟩ | ⟨installation, hmem, hid⟩
  · refine .inl ⟨payment, ?_, rfl⟩
    rw [hpayments]
    refine List.mem_filter.mpr ⟨hmem, ?_⟩
    simp [Transaction.ends, Ne.symm hne]
  · exact .inr ⟨installation, hinstallations installation hmem, hid⟩

/-- An installation that moves on is still there. -/
theorem State.Pursued.set {i : Nat} {installation moved : Installation}
    {productIdentifier : String} (h : s.Pursued productIdentifier)
    (hinstallation : s.installations[i]? = some installation)
    (hpayments : t.payments = s.payments)
    (hinstallations : t.installations = s.installations.set i moved)
    (hid : moved.productIdentifier = installation.productIdentifier) :
    t.Pursued productIdentifier := by
  rcases h with ⟨payment, hmem, hpayment⟩ | ⟨other, hmem, hother⟩
  · exact .inl ⟨payment, hpayments ▸ hmem, hpayment⟩
  · refine .inr ?_
    rw [hinstallations]
    rcases mem_set_or_eq hmem hinstallation moved with hkept | rfl
    · exact ⟨other, hkept, hother⟩
    · have hlt : i < s.installations.length := (List.getElem?_eq_some_iff.mp hinstallation).1
      exact ⟨moved, List.mem_set hlt moved, hid.trans hother⟩

/-- Every call is accounted for, and somebody is at work on those that wait. -/
structure Owed (s : State) : Prop where
  accounted : Slots.Accounted s.slots
  returning : ∀ {productIdentifier}, s.returning = some productIdentifier →
    (s.buyCompletions.lookup productIdentifier).isSome = true
  pursued : ∀ {productIdentifier}, (s.waiting productIdentifier).isSome = true →
    s.Pursued productIdentifier

/-- A step that leaves the completions alone keeps the account if it keeps somebody at work. -/
theorem Owed.of_same (h : Owed s) (hreturning : t.returning = s.returning)
    (hcompletions : t.buyCompletions = s.buyCompletions) (hcalls : t.calls = s.calls)
    (hanswers : t.answers = s.answers)
    (hpursued : ∀ {productIdentifier}, (s.waiting productIdentifier).isSome = true →
      s.Pursued productIdentifier → t.Pursued productIdentifier) : Owed t := by
  have hwaiting : t.waiting = s.waiting := by
    funext productIdentifier
    simp [State.waiting, hreturning, hcompletions]
  refine ⟨?_, ?_, ?_⟩
  · simpa only [State.slots, hwaiting, hcalls, hanswers] using h.accounted
  · rw [hreturning, hcompletions]
    exact h.returning
  · rw [hwaiting]
    exact fun hsome => hpursued hsome (h.pursued hsome)

/-- A report pays what is owed under its product identifier. -/
theorem Owed.report {productIdentifier : String} (value : Bool)
    (haccounted : Slots.Accounted s.slots) (hreturning : s.returning = none)
    (hpursued : ∀ {other}, other ≠ productIdentifier → (s.waiting other).isSome = true →
      s.Pursued other) : Owed (report s productIdentifier value) := by
  refine ⟨?_, ?_, ?_⟩
  · rw [slots_report hreturning]
    exact haccounted.serve productIdentifier
  · intro other hother
    rw [report_buyCompletions]
    unfold Purchases.report at hother
    split at hother
    · rename_i completion hlookup
      cases hother
      simp [hlookup]
    · rw [hreturning] at hother
      cases hother
  · intro other hsome
    rw [waiting_report hreturning] at hsome
    split at hsome
    · cases hsome
    · rename_i hother
      simpa [State.Pursued] using hpursued hother hsome

/-- A registered call waits under its product identifier, if no completion is stored there. -/
theorem slots_register {bot : ChatBot} (h : Owed s)
    (hfree : s.buyCompletions.lookup (idOfBot bot) = none) :
    State.slots { s with
      calls := s.calls + 1
      buyCompletions := s.buyCompletions.insert (idOfBot bot) ⟨s.calls, bot⟩
      payments := s.payments ++ [⟨s.calls, idOfBot bot⟩] } = s.slots.register (idOfBot bot) := by
  -- a completion that is running is still stored, so it is not one for this identifier
  have hreturning : s.returning ≠ some (idOfBot bot) := by
    intro hreturning
    have hsome := h.returning hreturning
    simp [hfree] at hsome
  refine congr (congr (congrArg Slots.State.mk rfl) ?_) rfl
  funext other
  simp only [State.slots, State.waiting, Function.update_apply]
  by_cases hother : other = idOfBot bot
  · subst hother
    simp [hreturning]
  · simp only [hother, if_false, AList.lookup_insert_ne hother]

theorem Owed.step (h : Owed s) (heffect : Effect s action t)
    (hok : accountable s action = true) : Owed t := by
  cases heffect with
  | quiet => exact h.of_same rfl rfl rfl rfl fun _ hpursued => hpursued
  | answered bot =>
      refine ⟨?_, h.returning, h.pursued⟩
      have hslots : State.slots { s with
          calls := s.calls + 1
          answers := s.answers ++ [⟨s.calls, bot.isLocal s.fs, bot.isLocal s.fs⟩] } =
            s.slots.answer := by
        refine congr (congr (congrArg Slots.State.mk rfl) rfl) ?_
        simp [State.slots]
      rw [hslots]
      exact h.accounted.answer
  | registered bot hregisters =>
      have hfree : s.buyCompletions.lookup (idOfBot bot) = none := by
        simpa [accountable, hregisters] using hok
      refine ⟨?_, ?_, ?_⟩
      · rw [slots_register h hfree]
        exact h.accounted.register (by simp [State.slots, State.waiting, hfree])
      · intro other hother
        by_cases hid : other = idOfBot bot
        · subst hid
          simp
        · simpa only [AList.lookup_insert_ne hid] using h.returning hother
      · intro other hother
        by_cases hid : other = idOfBot bot
        · exact .inl ⟨⟨s.calls, idOfBot bot⟩, List.mem_append_right _ List.mem_cons_self, hid.symm⟩
        · have hold : (s.waiting other).isSome = true := by
            simpa only [State.waiting, AList.lookup_insert_ne hid] using hother
          rcases h.pursued hold with ⟨payment, hmem, hpayment⟩ | hinstallation
          · exact .inl ⟨payment, List.mem_append_left _ hmem, hpayment⟩
          · exact .inr hinstallation
  | returned productIdentifier hreturning =>
      refine ⟨?_, ?_, ?_⟩
      · simpa only [State.slots, waiting_returned hreturning] using h.accounted
      · intro other hother
        cases hother
      · intro other hother
        rw [waiting_returned hreturning] at hother
        exact h.pursued hother
  | purchased transaction rest bot hreturning hhandling hstate hbot =>
      refine h.of_same rfl rfl rfl rfl fun {productIdentifier} _ hpursued => ?_
      by_cases hid : productIdentifier = transaction.productIdentifier
      · exact .inr ⟨_, List.mem_append_right _ List.mem_cons_self, hid.symm⟩
      · exact hpursued.filter hid rfl fun _ => List.mem_append_left _
  | lost transaction rest hreturning hhandling hstate hbot =>
      -- nobody waits under this identifier, so the payment that ends is owed to nobody
      have hnone : s.buyCompletions.lookup transaction.productIdentifier = none := by
        simpa [accountable, hreturning, hhandling, hstate, hbot] using hok
      refine h.of_same rfl rfl rfl rfl fun {productIdentifier} hsome hpursued => ?_
      have hid : productIdentifier ≠ transaction.productIdentifier := by
        rintro rfl
        simp [waiting_of_returning_none hreturning, hnone] at hsome
      exact hpursued.filter hid rfl fun _ hmem => hmem
  | restored => exact h.of_same rfl rfl rfl rfl fun _ hpursued => hpursued
  | failed transaction rest hreturning hhandling hstate =>
      exact Owed.report false h.accounted hreturning fun hid hsome =>
        (h.pursued hsome).filter hid rfl fun _ hmem => hmem
  | copied i outcome installation stage effect hinstallation hstage hstep =>
      exact h.of_same rfl rfl rfl rfl fun _ hpursued => hpursued.set hinstallation rfl rfl rfl
  | proceeded i failed installation stage hinstallation hstage =>
      exact h.of_same rfl rfl rfl rfl fun _ hpursued => hpursued.set hinstallation rfl rfl rfl
  | delivered i installation copied hreturning hinstallation hstage =>
      refine Owed.report copied h.accounted hreturning fun {productIdentifier} hid hsome => ?_
      refine (h.pursued hsome).imp_right ?_
      rintro ⟨other, hmem, hother⟩
      rcases mem_erase_idx_or_eq hmem hinstallation with hkept | rfl
      · exact ⟨other, hkept, hother⟩
      · exact absurd hother.symm hid
  | launched => cases hok

variable {fs : FileSystem} {urls : List URL}

theorem owed_initial (fs : FileSystem) : Owed (.initial fs) where
  accounted := Slots.Accounted.init
  returning hreturning := by cases hreturning
  pursued hwaiting := by simp [State.waiting, State.initial] at hwaiting

theorem owed_of_reachable (h : ((machine fs urls).restrict accountable).Reachable s) : Owed s :=
  h.restrict_induction (owed_initial fs) fun _ _ _ _ howed hok hnext =>
    howed.step (step_effect hnext) hok

/-- When every block has run and every payment has ended, each completion passed to `buyBot`
has been invoked exactly once, in every run whose steps are `accountable`. -/
theorem answered_once (h : ((machine fs urls).restrict accountable).Reachable s)
    (hquiescent : s.Quiescent) (hpayments : s.payments = []) :
    ∀ call < s.calls, s.answers.countP (fun answer => answer.call == call) = 1 := by
  intro call hcall
  obtain ⟨hreturning, hhandling, hinstallations⟩ := hquiescent
  have howed := owed_of_reachable h
  have hnone : ∀ productIdentifier, s.slots.waiting productIdentifier = none := by
    intro productIdentifier
    by_contra hsome
    have hwaiting : (s.waiting productIdentifier).isSome = true := by
      simpa [State.slots, Option.isSome_iff_ne_none] using hsome
    rcases howed.pursued hwaiting with ⟨payment, hmem, -⟩ | ⟨installation, hmem, -⟩
    · simp [hpayments] at hmem
    · simp [hinstallations] at hmem
  have hcount := howed.accounted.count_eq_one hnone hcall
  simpa [State.slots, List.count, List.countP_map, Function.comp_def] using hcount

/-- A bot is bought after the store has been loaded, from the tap to the report. -/
theorem answered_once_run : ∃ s : State,
    ((machine (.fresh ["a"]) [(ChatBot.named "a").url]).restrict accountable).Reachable s ∧
    s.Quiescent ∧ s.calls = 1 ∧
    ∀ call < s.calls, s.answers.countP (fun answer => answer.call == call) = 1 := by
  obtain ⟨s, hreach, hquiescent, hpayments, hcalls⟩ :=
    ((machine (.fresh ["a"]) [(ChatBot.named "a").url]).restrict accountable).exists_reachable
      [.loader .botsInStore, .loader (.load (some "a") 3),
        .loader (.didReceive 0 [⟨idOfName "a"⟩]), .loader .runBlock, .loader .continue,
        .loader .continue, .setUserId 7, .buyBot (ChatBot.named "a"),
        .updatedTransactions [⟨0, some 0, idOfName "a", .purchased⟩], .continue,
        .copy 0 .ok, .copy 0 .ok, .copy 0 .ok, .copy 0 .ok, .copy 0 .ok, .proceed 0 false,
        .proceed 0 false, .proceed 0 false, .proceed 0 false, .deliver 0, .continue]
      (fun s => s.Quiescent ∧ s.payments = [] ∧ s.calls = 1) (by decide)
  exact ⟨s, hreach, hquiescent, hcalls, answered_once hreach hquiescent hpayments⟩

/-- Of two purchases of one bot at the same time the first is never answered, although both
payments end: the second completion takes its place. -/
theorem not_answered_once : ∃ s : State,
    (machine (.fresh ["a"]) [(ChatBot.named "a").url]).Reachable s ∧ s.Quiescent ∧
    s.payments = [] ∧ s.calls = 2 ∧ s.answers.countP (fun answer => answer.call == 0) = 0 :=
  (machine (.fresh ["a"]) [(ChatBot.named "a").url]).exists_reachable
    [.loader (.loadProducts [ChatBot.named "a"]), .loader (.didReceive 0 [⟨idOfName "a"⟩]),
      .loader .continue, .buyBot (ChatBot.named "a"), .buyBot (ChatBot.named "a"),
      .updatedTransactions [⟨0, some 0, idOfName "a", .failed⟩, ⟨1, some 1, idOfName "a", .failed⟩],
      .continue, .continue, .continue]
    (fun s => s.Quiescent ∧ s.payments = [] ∧ s.calls = 2 ∧
      s.answers.countP (fun answer => answer.call == 0) = 0) (by decide)

end AiGramLib.Purchases
