import AiGramLib.Library.Rest
import AiGramLib.Store.Links
import AiGramLib.Store.Served

/-!
# Every load comes to its end

The load block, the product requests and the main blocks end by themselves, in a number of steps
that depends on how many callers wait: whichever bot `Set.first` picks, if the loop from there
ends. When all requests are answered and nobody else has made one, everybody has been served by
then.
-/

namespace AiGramLib.Loader

open Transition

/-- The steps of what has been dispatched. Requests are answered. -/
def isWork : Action → Bool
  | .load _ _ | .didReceive _ _ | .runBlock | .continue => true
  | .botsInStore | .loadProducts _ | .requestFails _ => false

/-- The steps that are left at most: a main block invokes each completion that waits, and empties
the list. -/
def State.workLeft (s : State) : Nat :=
  let waiting := s.storeBotsLoadingCompletions.length
  s.loadBlocks * (waiting + 5) + s.requests.length * (waiting + 4) +
    s.mainBlocks.length * (waiting + 3) + s.current.length

variable {bundle : List (Option ChatBot)} {s t : State} {action : Action}

theorem work_left_load_products (s : State) (bots : List ChatBot)
    (completion : ProductsCompletion) : (loadProducts s bots completion).workLeft =
      s.workLeft + (s.storeBotsLoadingCompletions.length + 4) := by
  simp only [State.workLeft, loadProducts, List.length_append, List.length_singleton,
    Nat.add_mul, Nat.one_mul]
  omega

theorem work_left_did_receive {i : Nat} {products : List SKProduct}
    (h : didReceive s i products = some t) : t.workLeft < s.workLeft := by
  obtain ⟨request, hrequest, h⟩ := Option.bind_eq_some_iff.mp h
  have hlt := (List.getElem?_eq_some_iff.mp hrequest).1
  obtain ⟨left, hleft⟩ : ∃ left, s.requests.length = left + 1 :=
    ⟨s.requests.length - 1, by omega⟩
  have hrest : (s.requests.eraseIdx i).length = left := by
    rw [List.length_eraseIdx_of_lt hlt, hleft, Nat.add_sub_cancel]
  split at h
  · rename_i hcurrent
    split at h <;> cases h <;>
      simp only [State.workLeft, hrest, hleft, hcurrent, List.length_append,
        List.length_singleton, List.length_nil, Nat.add_mul, Nat.one_mul] <;> omega
  · cases h

theorem work_left_run_block (h : runBlock s = some t) : t.workLeft < s.workLeft := by
  simp only [runBlock] at h
  split at h <;> cases h
  rename_i hcurrent hmain
  simp only [State.workLeft, hcurrent, hmain, List.length_cons, List.length_append, List.length_map,
    List.length_nil, Nat.add_mul, Nat.one_mul]
  omega

theorem work_left_continue (h : continueStep s = some t) : t.workLeft < s.workLeft := by
  simp only [continueStep] at h
  split at h <;> cases h <;> rename_i hcurrent
  · simp only [State.workLeft, hcurrent, List.length_cons]
    omega
  · -- with nobody waiting any more, the main blocks that are left have less to do
    simp only [State.workLeft, hcurrent, List.length_cons, List.length_nil]
    have hloads := Nat.mul_le_mul_left s.loadBlocks
      (Nat.add_le_add_right (Nat.zero_le s.storeBotsLoadingCompletions.length) 5)
    have hrequests := Nat.mul_le_mul_left s.requests.length
      (Nat.add_le_add_right (Nat.zero_le s.storeBotsLoadingCompletions.length) 4)
    have hmain := Nat.mul_le_mul_left s.mainBlocks.length
      (Nat.add_le_add_right (Nat.zero_le s.storeBotsLoadingCompletions.length) 3)
    omega
  · simp only [State.workLeft, hcurrent, List.length_cons]
    omega

/-- Every step of work leaves less, and makes no call. -/
theorem work_left_lt (hwork : isWork action = true)
    (h : (machine bundle).next s action = some t) :
    t.workLeft < s.workLeft ∧ t.calls = s.calls := by
  cases action with
  | botsInStore | loadProducts | requestFails => cases hwork
  | load name fuel =>
      simp only [machine, load] at h
      split at h
      · rename_i hblocks
        obtain ⟨result, -, h⟩ := Option.bind_eq_some_iff.mp h
        obtain rfl := Option.some.inj h
        refine ⟨?_, rfl⟩
        obtain ⟨left, hleft⟩ : ∃ left, s.loadBlocks = left + 1 := ⟨s.loadBlocks - 1, by omega⟩
        rw [work_left_load_products]
        simp only [State.workLeft, hleft, Nat.add_sub_cancel, Nat.add_mul, Nat.one_mul]
        omega
      · cases h
  | didReceive i products =>
      refine ⟨work_left_did_receive h, ?_⟩
      obtain ⟨request, -, h⟩ := Option.bind_eq_some_iff.mp h
      repeat' split at h
      all_goals cases h <;> rfl
  | runBlock =>
      refine ⟨work_left_run_block h, ?_⟩
      simp only [machine, runBlock] at h
      split at h <;> cases h
      rfl
  | «continue» =>
      refine ⟨work_left_continue h, ?_⟩
      simp only [machine, continueStep] at h
      split at h <;> cases h <;> rfl

/-- Wherever `Set.first` starts, the loop of the load block ends. -/
def WalksEnd (bundle : List (Option ChatBot)) : Prop :=
  ∀ name, isFirst (loadLinks bundle).heads name = true → ∃ result, Ends bundle name result

/-- What is left to do can go on: the main thread with its step or with a main block, the App Store
with an answer, and the load block if no request is under way. -/
theorem exists_work (hends : WalksEnd bundle) (hleft : ¬ s.Quiescent) :
    ∃ action t, isWork action = true ∧ (machine bundle).next s action = some t := by
  cases hcurrent : s.current with
  | cons instr rest =>
      refine ⟨.continue, ?_⟩
      cases instr <;> exact ⟨_, rfl, by simp only [machine, continueStep, hcurrent]; rfl⟩
  | nil =>
      cases hmain : s.mainBlocks with
      | cons result rest =>
          exact ⟨.runBlock, _, rfl, by simp only [machine, runBlock, hcurrent, hmain]; rfl⟩
      | nil =>
          cases hrequests : s.requests with
          | cons request rest =>
              refine ⟨.didReceive 0 [], ?_⟩
              rcases hslot : s.productsCompletion with _ | result | own <;>
                exact ⟨_, rfl, by simp [machine, didReceive, hrequests, hcurrent, hslot]; rfl⟩
          | nil =>
              have hblocks : 0 < s.loadBlocks := by
                by_contra hnone
                exact hleft ⟨by omega, hrequests, hmain, hcurrent⟩
              obtain ⟨name, hfirst⟩ : ∃ name, isFirst (loadLinks bundle).heads name = true := by
                rcases (loadLinks bundle).heads.eq_empty_or_nonempty with hempty | ⟨name, hname⟩
                · exact ⟨none, by simp [isFirst, hempty]⟩
                · exact ⟨some name, by simp [isFirst, hname]⟩
              obtain ⟨result, hresult⟩ := hends name hfirst
              have hlist := hresult (result.length + 1) (Nat.lt_succ_self _)
              exact ⟨.load name (result.length + 1), _, rfl,
                by simp only [machine, load, if_pos hblocks, hlist]; rfl⟩

/-- Nothing is left to do, and every caller has been given the list once. -/
def AllServed (calls : Nat) (s : State) : Prop :=
  s.Quiescent ∧ s.storeBotsLoadingCompletions = [] ∧ ∀ call < calls, s.invocations call = 1

theorem settles (hends : WalksEnd bundle) (calls : Nat) :
    (machine bundle).Settles isWork
      (fun s => (((machine bundle).restrict onlyAnswered).Reachable s) ∧ s.calls = calls)
      State.workLeft (AllServed calls) where
  keeps := by
    rintro state action following ⟨hreach, hcalls⟩ hwork hnext
    have hok : onlyAnswered state action = true := by
      cases action <;> first | rfl | cases hwork
    exact ⟨hreach.trans (.step (Machine.restrict_next_eq_some.mpr ⟨hok, hnext⟩)),
      (work_left_lt hwork hnext).2.trans hcalls⟩
  lowers := fun _ hwork hnext => (work_left_lt hwork hnext).1
  goes_on := by
    rintro state ⟨hreach, rfl⟩ hleft
    refine exists_work hends fun hquiescent => hleft ⟨hquiescent, ?_⟩
    have hnone : state.requestsFailed = 0 := (reaches_calls_le hreach).2
    have hphase := phase_of_reachable (reaches_of_only_answered hreach)
    exact ((hphase.served_or_failed hquiescent).resolve_right fun hfailed =>
      absurd hfailed.1 (by omega)).2

/-- There is one load, with at most a turn for each call. -/
theorem Phase.work_left_le (h : Phase s) : s.workLeft ≤ s.calls + 5 := by
  cases h with
  | idle hprogress =>
      simp only [State.progress, Progress.mk.injEq] at hprogress
      obtain ⟨-, -, -, hblocks, hrequests, hmain, hcurrent, -⟩ := hprogress
      simp [State.workLeft, hblocks, hrequests, hmain, hcurrent]
  | loading hunderway =>
      have hwaiting : s.storeBotsLoadingCompletions.length = s.calls := by
        rw [hunderway.pending, List.length_range]
      generalize hprogress : s.progress = progress
      have hloading := hprogress ▸ hunderway.progress
      cases hloading <;>
        simp only [State.progress, Progress.mk.injEq] at hprogress <;>
        obtain ⟨-, -, -, hblocks, hrequests, hmain, hcurrent, -⟩ := hprogress <;>
        simp [State.workLeft, hblocks, hrequests, hmain, hcurrent, hwaiting]
  | draining result rest hprogress hstore hrest hcalls =>
      simp only [State.progress, Progress.mk.injEq] at hprogress
      obtain ⟨-, -, -, hblocks, hrequests, hmain, hcurrent, -⟩ := hprogress
      have hlength : rest.length ≤ (List.range s.calls).length :=
        (List.subperm_of_subset hrest fun call hcall =>
          List.mem_range.mpr (hcalls call hcall)).length_le
      rw [List.length_range] at hlength
      simp only [State.workLeft, hblocks, hrequests, hmain, hcurrent, List.length_append,
        List.length_map, List.length_singleton, List.length_nil, Nat.zero_mul]
      omega
  | done result hprogress =>
      simp only [State.progress, Progress.mk.injEq] at hprogress
      obtain ⟨-, -, -, hblocks, hrequests, hmain, hcurrent, -⟩ := hprogress
      simp [State.workLeft, hblocks, hrequests, hmain, hcurrent]

/-- In a run in which requests are answered and only load blocks make them, the load that is under
way comes to an end by itself, in at most one step for each call and five more, whatever the
schedule; and then each call made so far has been given the list once. -/
theorem loads_come_to_rest (hends : WalksEnd bundle)
    (h : ((machine bundle).restrict onlyAnswered).Reachable s) :
    (machine bundle).ComesToRest isWork (AllServed s.calls) s ∧
    ∀ actions t, ((machine bundle).restrict fun _ => isWork).run s actions = some t →
      actions.length ≤ s.calls + 5 := by
  have hsettles := settles hends s.calls
  have hstate := And.intro h (Eq.refl s.calls)
  refine ⟨hsettles.comes_to_rest hstate, fun actions t hrun => ?_⟩
  have hlength := hsettles.length_le hstate hrun
  have hwork := (phase_of_reachable (reaches_of_only_answered h)).work_left_le
  omega

/-- Two callers wait for a product request. -/
theorem loads_come_to_rest_run :
    ∃ s, ((machine [some (.named "a")]).restrict onlyAnswered).Reachable s ∧ s.calls = 2 ∧
      s.requests.length = 1 ∧ (machine [some (.named "a")]).ComesToRest isWork (AllServed 2) s := by
  have hends : WalksEnd [some (.named "a")] := by
    intro name hfirst
    have hheads : (loadLinks [some (.named "a")]).heads = {"a"} := by decide
    cases name with
    | none => simp [isFirst, hheads] at hfirst
    | some start =>
        obtain rfl : start = "a" := by simpa [isFirst, hheads] using hfirst
        exact ⟨_, ends_of_trail hfirst (.last rfl)⟩
  obtain ⟨s, hs, hcalls, hrequests⟩ :=
    ((machine [some (.named "a")]).restrict onlyAnswered).exists_reachable
      [.botsInStore, .botsInStore, .load (some "a") 3]
      (fun s => s.calls = 2 ∧ s.requests.length = 1) (by decide)
  exact ⟨s, hs, hcalls, hrequests, hcalls ▸ (loads_come_to_rest hends hs).1⟩

end AiGramLib.Loader
