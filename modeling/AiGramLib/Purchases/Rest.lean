import Mathlib.Algebra.GroupWithZero.Nat
import AiGramLib.Bots.Rest
import AiGramLib.Library.Rest
import AiGramLib.Purchases.Effect

/-!
# Every transaction is worked off

A transaction that is handed over leads to a bounded number of steps: of the loop over the
transactions, of `copyBot`, of the requests behind it and of the main blocks that report. They
come to an end by themselves if `userId` has been set before the transactions come in, as the
handler takes it out of an implicitly unwrapped optional. StoreKit may deliver unfinished
transactions right after the launch, so it is the caller of the library who has to see to that.
The other values that the handlers unwrap are there: failed transactions have an error, and the
names of the bots in the store fit into an address.
-/

namespace AiGramLib.Purchases

open Transition

/-- What follows a transaction: the steps of the main thread, of the copies, of the network and
of the main blocks. -/
def isWork : Action → Bool
  | .continue | .copy _ _ | .proceed _ _ | .deliver _ | .loader .continue => true
  | _ => false

/-- Transactions are handed over only when the user is known. -/
def identified (s : State) : Action → Bool
  | .updatedTransactions _ => s.userId.isSome
  | _ => true

/-- The steps that an installation takes at most, from this stage on. -/
def Stage.left : Stage → Nat
  | .copying stage => 6 + stage.left
  | .enabling => 5
  | .refreshing => 4
  | .publishing => 3
  | .reporting _ => 2

/-- The steps that are left at most. -/
def State.workLeft (s : State) : Nat :=
  15 * s.handling.length + (s.installations.map fun installation => installation.stage.left).sum +
    s.returning.toList.length + s.loader.current.length

/-- A transaction in this state is passed to `finishTransaction`. -/
def TransactionState.isFinal : TransactionState → Bool
  | .purchased | .failed | .restored => true
  | .purchasing | .deferred => false

variable {fs : FileSystem} {urls : List URL} {first s t : State} {action : Action}

/-- While transactions are being worked off, the user is known. -/
def Known (s : State) : Prop :=
  s.handling ≠ [] ∨ s.installations ≠ [] → s.userId.isSome = true

/-- Of the transactions that were being handled, those in a final state that are not any more
have been finished. -/
def Handled (first s : State) : Prop :=
  ∀ transaction ∈ first.handling, transaction.transactionState.isFinal = true →
    transaction ∈ s.handling ∨ transaction ∈ s.finished

section Report

variable (s : State) (productIdentifier : String) (value : Bool)

@[simp] theorem report_handling :
    (report s productIdentifier value).handling = s.handling := by
  unfold report
  split <;> rfl

@[simp] theorem report_userId : (report s productIdentifier value).userId = s.userId := by
  unfold report
  split <;> rfl

/-- A report leaves at most the `removeValue` after the completion. -/
theorem work_left_report (h : s.returning = none) :
    (report s productIdentifier value).workLeft ≤ s.workLeft + 1 := by
  unfold report
  split
  · simp only [State.workLeft, h, Option.toList_some, Option.toList_none, List.length_singleton,
      List.length_nil]
    omega
  · exact Nat.le_succ _

end Report

/-- A turn of the loop leaves less than it was good for. -/
theorem work_left_handle {transaction : Transaction} (h : s.returning = none) :
    (handle s transaction).workLeft < s.workLeft + 15 := by
  have hended : ∀ s : State, (endPayment (finishTransaction s transaction) transaction).workLeft =
      s.workLeft := fun s => rfl
  unfold handle
  split
  · omega
  · dsimp only
    split
    · rw [hended]
      omega
    · simp only [State.workLeft, endPayment, finishTransaction, List.map_append, List.sum_append,
        List.map_cons, List.map_nil, List.sum_cons, List.sum_nil, Stage.left, CopyStage.left]
      omega
  · have hreport := work_left_report (endPayment (finishTransaction s transaction) transaction)
      transaction.productIdentifier false h
    rw [hended] at hreport
    omega
  · exact show s.workLeft < s.workLeft + 15 by omega
  · omega

theorem work_left_continue (h : continueStep s = some t) : t.workLeft < s.workLeft := by
  unfold continueStep at h
  split at h
  · rename_i handling productIdentifier hreturning
    cases h
    simp [State.workLeft, hreturning]
  · rename_i transaction rest hreturning hhandling
    cases h
    have hturn := @work_left_handle { s with handling := rest } transaction hreturning
    have hloop : s.workLeft = ({ s with handling := rest } : State).workLeft + 15 := by
      simp only [State.workLeft, hhandling, List.length_cons]
      omega
    omega
  · cases h

/-- The installation that moves counts for less, the others as before. -/
theorem work_left_set {i : Nat} {installation moved : Installation}
    (hinstallation : s.installations[i]? = some installation)
    (hleft : moved.stage.left < installation.stage.left) (fs : FileSystem) :
    ({ s with fs, installations := s.installations.set i moved } : State).workLeft <
      s.workLeft := by
  have hsum := Machine.sum_map_set (fun installation => installation.stage.left) hinstallation moved
  simp only [State.workLeft]
  omega

/-- What follows a stage is shorter. -/
theorem left_next_stage {failed : Bool} {stage following : Stage}
    (h : nextStage s failed stage = some following) : following.left < stage.left := by
  unfold nextStage at h
  split at h
  · split at h <;> cases h
    exact show 5 < 6 by decide
  · cases h
    exact show 2 < 6 by decide
  · cases h
    split
    · exact show 2 < 5 by decide
    · exact show 4 < 5 by decide
  · cases h
    exact show 3 < 4 by decide
  · split at h <;> cases h
    exact show 2 < 3 by decide
  · cases h
  · cases h

theorem work_left_deliver {i : Nat} (h : deliver s i = some t) : t.workLeft < s.workLeft := by
  obtain ⟨installation, hinstallation, h⟩ := Option.bind_eq_some_iff.mp h
  split at h
  · rename_i copied hstage
    split at h
    · rename_i hidle
      cases h
      have hreturning : s.returning = none := by
        simp only [State.mainIdle, Bool.and_eq_true, Option.isNone_iff_eq_none] at hidle
        exact hidle.1.1
      have hreport := work_left_report { s with installations := s.installations.eraseIdx i }
        installation.productIdentifier copied hreturning
      have herased := Machine.sum_map_eraseIdx (fun installation => installation.stage.left)
        hinstallation
      have hown : installation.stage.left = 2 := by
        rw [hstage]
        rfl
      refine hreport.trans_lt ?_
      simp only [State.workLeft, herased, hown]
      omega
    · cases h
  · cases h

/-- Work lowers what is left. -/
theorem work_left_lt (hwork : isWork action = true)
    (hnext : (machine fs urls).next s action = some t) : t.workLeft < s.workLeft := by
  cases action with
  | setUserId | buyBot | updatedTransactions | launch => cases hwork
  | loader action =>
      cases action with
      | «continue» =>
          simp only [machine] at hnext
          split at hnext
          · obtain ⟨loader, hloader, hnext⟩ := Option.map_eq_some_iff.mp hnext
            cases hnext
            simp only [Loader.machine, Loader.continueStep] at hloader
            split at hloader <;> cases hloader <;> rename_i hcurrent <;>
              simp [State.workLeft, hcurrent]
          · cases hnext
      | _ => cases hwork
  | «continue» => exact work_left_continue hnext
  | copy i outcome =>
      obtain ⟨installation, hinstallation, hnext⟩ := Option.bind_eq_some_iff.mp hnext
      split at hnext
      · rename_i stage hstage
        obtain ⟨effect, hstep, hnext⟩ := Option.bind_eq_some_iff.mp hnext
        cases hnext
        have hleft := copy_step_left_lt hstep
        refine work_left_set hinstallation ?_ effect.fs
        rw [hstage]
        exact show 6 + effect.stage.left < 6 + stage.left by omega
      · cases hnext
  | proceed i failed =>
      obtain ⟨installation, hinstallation, hnext⟩ := Option.bind_eq_some_iff.mp hnext
      obtain ⟨stage, hstage, hnext⟩ := Option.bind_eq_some_iff.mp hnext
      cases hnext
      exact work_left_set hinstallation (left_next_stage hstage) s.fs
  | deliver i => exact work_left_deliver hnext

/-- A turn of the loop finishes a transaction in a final state, and forgets no other. -/
theorem handle_frame (s : State) (transaction : Transaction) :
    (handle s transaction).handling = s.handling ∧ (handle s transaction).userId = s.userId ∧
    s.finished ⊆ (handle s transaction).finished ∧
    (transaction.transactionState.isFinal = true →
      transaction ∈ (handle s transaction).finished) := by
  unfold handle
  cases hstate : transaction.transactionState with
  | purchasing | deferred =>
      exact ⟨rfl, rfl, List.Subset.refl _, fun h => by cases h⟩
  | purchased =>
      dsimp only
      split <;> exact ⟨rfl, rfl, List.subset_append_left _ _, fun _ => List.mem_append_right _
        (List.mem_singleton_self _)⟩
  | failed =>
      simp [endPayment, finishTransaction]
  | restored =>
      exact ⟨rfl, rfl, List.subset_append_left _ _, fun _ => List.mem_append_right _
        (List.mem_singleton_self _)⟩

/-- The actions that leave the transactions and the user alone. -/
def leavesTransactions : Action → Bool
  | .buyBot _ | .loader _ | .copy _ _ | .proceed _ _ | .deliver _ => true
  | .setUserId _ | .updatedTransactions _ | .continue | .launch => false

/-- They start no installation either. -/
theorem next_frame (hleaves : leavesTransactions action = true)
    (hnext : (machine fs urls).next s action = some t) :
    t.handling = s.handling ∧ t.userId = s.userId ∧ t.finished = s.finished ∧
      (t.installations ≠ [] → s.installations ≠ []) := by
  cases action with
  | setUserId | updatedTransactions | «continue» | launch => cases hleaves
  | buyBot bot =>
      simp only [machine] at hnext
      split at hnext <;> cases hnext
      unfold buyBot
      dsimp only
      split
      · exact ⟨rfl, rfl, rfl, id⟩
      · split <;> exact ⟨rfl, rfl, rfl, id⟩
  | loader action =>
      simp only [machine] at hnext
      split at hnext
      · obtain ⟨loader, -, hnext⟩ := Option.map_eq_some_iff.mp hnext
        cases hnext
        exact ⟨rfl, rfl, rfl, id⟩
      · cases hnext
  | copy i outcome =>
      obtain ⟨installation, -, hnext⟩ := Option.bind_eq_some_iff.mp hnext
      split at hnext
      · obtain ⟨effect, -, hnext⟩ := Option.bind_eq_some_iff.mp hnext
        cases hnext
        exact ⟨rfl, rfl, rfl, by simp⟩
      · cases hnext
  | proceed i failed =>
      obtain ⟨installation, -, hnext⟩ := Option.bind_eq_some_iff.mp hnext
      obtain ⟨stage, -, hnext⟩ := Option.bind_eq_some_iff.mp hnext
      cases hnext
      exact ⟨rfl, rfl, rfl, by simp⟩
  | deliver i =>
      obtain ⟨installation, hinstallation, hnext⟩ := Option.bind_eq_some_iff.mp hnext
      split at hnext
      · split at hnext <;> cases hnext
        exact ⟨report_handling .., report_userId .., report_finished ..,
          fun _ => List.ne_nil_of_mem (List.mem_of_getElem? hinstallation)⟩
      · cases hnext

/-- The next statement on the main thread finishes the transaction it is about, if it is in a
final state, and forgets no other. -/
theorem continue_frame (hnext : continueStep s = some t) :
    t.userId = s.userId ∧ s.finished ⊆ t.finished ∧
    (s.handling ≠ [] ∨ t.handling = s.handling ∧ t.installations = s.installations) ∧
    ∀ transaction ∈ s.handling, transaction.transactionState.isFinal = true →
      transaction ∈ t.handling ∨ transaction ∈ t.finished := by
  unfold continueStep at hnext
  split at hnext
  · cases hnext
    exact ⟨rfl, List.Subset.refl _, .inr ⟨rfl, rfl⟩, fun _ hmem _ => .inl hmem⟩
  · rename_i transaction rest hreturning hhandling
    cases hnext
    obtain ⟨hrest, huser, hfinished, hfinal⟩ := handle_frame { s with handling := rest } transaction
    refine ⟨huser, hfinished, .inl (by simp [hhandling]), fun other hother hstate => ?_⟩
    rw [hhandling] at hother
    rcases List.mem_cons.mp hother with rfl | hlater
    · exact .inr (hfinal hstate)
    · exact .inl (hrest ▸ hlater)
  · cases hnext

theorem known_initial (fs : FileSystem) : Known (.initial fs) := by
  intro hleft
  simp [State.initial] at hleft

theorem Known.step (h : Known s) (hok : identified s action = true)
    (hnext : (machine fs urls).next s action = some t) : Known t := by
  intro hleft
  cases action with
  | setUserId userId =>
      cases hnext
      rfl
  | updatedTransactions transactions =>
      simp only [machine] at hnext
      split at hnext <;> cases hnext
      exact hok
  | launch =>
      cases hnext
      simp [launch] at hleft
  | «continue» =>
      obtain ⟨huser, -, hframe, -⟩ := continue_frame hnext
      rw [huser]
      rcases hframe with hhandling | ⟨hhandling, hinstallations⟩
      · exact h (.inl hhandling)
      · exact h (hhandling ▸ hinstallations ▸ hleft)
  | buyBot | loader | copy | proceed | deliver =>
      obtain ⟨hhandling, huser, -, hinstallations⟩ := next_frame rfl hnext
      rw [huser]
      exact h (hleft.imp (fun hne => hhandling ▸ hne) hinstallations)

theorem Handled.step (h : Handled first s) (hwork : isWork action = true)
    (hnext : (machine fs urls).next s action = some t) : Handled first t := by
  intro transaction hmem hfinal
  cases action with
  | setUserId | updatedTransactions | launch => cases hwork
  | «continue» =>
      obtain ⟨-, hfinished, -, hhandled⟩ := continue_frame hnext
      rcases h transaction hmem hfinal with hleft | hdone
      · exact hhandled transaction hleft hfinal
      · exact .inr (hfinished hdone)
  | buyBot | loader | copy | proceed | deliver =>
      obtain ⟨hhandling, -, hfinished, -⟩ := next_frame rfl hnext
      rw [hhandling, hfinished]
      exact h transaction hmem hfinal

/-- An installation is never stuck while the main thread is idle and the user known. -/
theorem exists_installation_step (hidle : s.mainIdle = true) {installation : Installation}
    (hinstallation : s.installations[0]? = some installation) (huser : s.userId.isSome = true) :
    ∃ action t, isWork action = true ∧ (machine fs urls).next s action = some t := by
  have hproceed : ∀ stage, nextStage s false installation.stage = some stage →
      ∃ action t, isWork action = true ∧ (machine fs urls).next s action = some t :=
    fun stage hstage => ⟨.proceed 0 false, _, rfl, by
      simp only [machine, proceed, hinstallation, hstage, Option.bind_eq_bind, Option.bind_some]
      rfl⟩
  cases hstage : installation.stage with
  | copying point =>
      by_cases hreturned : ∃ copied, point = .returned copied
      · obtain ⟨copied, rfl⟩ := hreturned
        cases copied with
        | true => exact hproceed .enabling (by simp [hstage, nextStage, huser])
        | false => exact hproceed (.reporting false) (by simp [hstage, nextStage])
      · obtain ⟨effect, heffect⟩ := exists_copy_step installation.bot s.fs
          (fun copied heq => hreturned ⟨copied, heq⟩) .ok
        exact ⟨.copy 0 .ok, _, rfl, by simp [machine, copy, hinstallation, hstage, heffect]; rfl⟩
  | enabling => exact hproceed .refreshing (by simp [hstage, nextStage])
  | refreshing => exact hproceed .publishing (by simp [hstage, nextStage])
  | publishing => exact hproceed (.reporting true) (by simp [hstage, nextStage, hidle])
  | reporting copied =>
      exact ⟨.deliver 0, _, rfl, by simp [machine, deliver, hinstallation, hstage, hidle]; rfl⟩

/-- Everything that was handed over has been worked off. -/
def WorkedOff (first s : State) : Prop :=
  s.Quiescent ∧ s.loader.current = [] ∧
    ∀ transaction ∈ first.handling, transaction.transactionState.isFinal = true →
      transaction ∈ s.finished

/-- The transactions settle. -/
theorem settles (fs : FileSystem) (urls : List URL) (first : State) :
    (machine fs urls).Settles isWork (fun s => Known s ∧ Handled first s) State.workLeft
      (WorkedOff first) where
  keeps := by
    rintro state action following ⟨hknown, hhandled⟩ hwork hnext
    refine ⟨hknown.step ?_ hnext, hhandled.step hwork hnext⟩
    cases action with
    | updatedTransactions => cases hwork
    | _ => rfl
  lowers := fun _ hwork hnext => work_left_lt hwork hnext
  goes_on := by
    rintro state ⟨hknown, hhandled⟩ hleft
    cases hreturning : state.returning with
    | some productIdentifier =>
        exact ⟨.continue, _, rfl, by simp only [machine, continueStep, hreturning]; rfl⟩
    | none =>
        cases hhandling : state.handling with
        | cons transaction rest =>
            exact ⟨.continue, _, rfl, by
              simp only [machine, continueStep, hreturning, hhandling]; rfl⟩
        | nil =>
            cases hcurrent : state.loader.current with
            | cons instr rest =>
                have hadmits : state.admits .continue = true := by
                  simp [State.admits, hreturning, hhandling]
                refine ⟨.loader .continue, ?_⟩
                cases instr <;> exact ⟨_, rfl, by
                  simp [machine, Loader.machine, Loader.continueStep, hadmits, hcurrent]; rfl⟩
            | nil =>
                have hidle : state.mainIdle = true := by
                  simp [State.mainIdle, hreturning, hhandling, hcurrent]
                cases hinstallations : state.installations with
                | cons installation rest =>
                    exact exists_installation_step hidle (by rw [hinstallations]; rfl)
                      (hknown (.inr (by simp [hinstallations])))
                | nil =>
                    refine absurd ⟨⟨hreturning, hhandling, hinstallations⟩, hcurrent,
                      fun transaction hmem hfinal => ?_⟩ hleft
                    rcases hhandled transaction hmem hfinal with hpending | hfinished
                    · rw [hhandling] at hpending
                      cases hpending
                    · exact hfinished

/-- In a run in which the user is known before any transaction is handed over, every state comes
to rest, whatever the files and the network do and in a bounded number of steps: no handler
crashes or is stuck, and the transactions that were purchased, failed or restored have been
finished. -/
theorem transactions_come_to_rest (h : ((machine fs urls).restrict identified).Reachable s) :
    (machine fs urls).ComesToRest isWork (WorkedOff s) s ∧
    ∀ actions t, ((machine fs urls).restrict fun _ => isWork).run s actions = some t →
      actions.length ≤ s.workLeft := by
  have hknown : Known s := h.restrict_induction (known_initial fs)
    fun _ _ _ _ hstate hok hnext => hstate.step hok hnext
  have hstate : Known s ∧ Handled s s := ⟨hknown, fun _ hmem _ => .inl hmem⟩
  refine ⟨(settles fs urls s).comes_to_rest hstate, fun actions t hrun => ?_⟩
  have hlength := (settles fs urls s).length_le hstate hrun
  omega

/-- A restored and a failed transaction that have just come in for a known user: both will be
finished. -/
theorem transactions_come_to_rest_run :
    let transactions : List Transaction := [⟨0, none, "a", .restored⟩, ⟨1, none, "b", .failed⟩]
    ∃ s, (machine (.fresh []) []).Reachable s ∧ s.handling = transactions ∧
      (machine (.fresh []) []).ComesToRest isWork (WorkedOff s) s := by
  intro transactions
  obtain ⟨s, hs, hhandling⟩ := ((machine (.fresh []) []).restrict identified).exists_reachable
    [.setUserId 1, .updatedTransactions transactions] (fun s => s.handling = transactions)
    (by decide)
  exact ⟨s, hs.of_restrict, hhandling, (transactions_come_to_rest hs).1⟩

end AiGramLib.Purchases
