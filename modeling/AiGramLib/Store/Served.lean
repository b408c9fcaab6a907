import AiGramLib.Store.Loader

/-!
# Every caller of `botsInStore` is served once, with one list

The runs in which only `botsInStore` calls `loadProducts` go through a few phases: nothing
asked, one load under way, the final main block draining the pending completions, done; and a
failed request leaves the load under way for ever. `Phase` says in each of them what every
completion has been given so far. From it follow `loaded_once` and, for requests that fail,
`served_iff`: the callers are served exactly if no request failed.
-/

namespace AiGramLib.Loader

open Transition

/-- Nobody but the load block calls `loadProducts`. -/
def onlyBotsInStore (_ : State) : Action → Bool
  | .loadProducts _ => false
  | _ => true

/-- Moreover no product request fails. -/
def onlyAnswered (s : State) : Action → Bool
  | .requestFails _ => false
  | action => onlyBotsInStore s action

/-- How often the completion of a call has been invoked. -/
def State.invocations (s : State) (call : Nat) : Nat :=
  s.answers.countP fun answer => answer.call == call

/-- The fields that say how far the load has come. -/
structure Progress where
  loadedBotsFlag : Bool
  storeBotsLoadingStarted : Bool
  productsCompletion : Option ProductsCompletion
  loadBlocks : Nat
  requests : Nat
  mainBlocks : List (List ChatBot)
  current : List Instr
  loadsStarted : Nat
  requestsFailed : Nat
  blocksRun : Nat

def State.progress (s : State) : Progress where
  loadedBotsFlag := s.loadedBotsFlag
  storeBotsLoadingStarted := s.storeBotsLoadingStarted
  productsCompletion := s.productsCompletion
  loadBlocks := s.loadBlocks
  requests := s.requests.length
  mainBlocks := s.mainBlocks
  current := s.current
  loadsStarted := s.loadsStarted
  requestsFailed := s.requestsFailed
  blocksRun := s.blocksRun

/-- The stages of a load that has been started and whose final main block has not. -/
inductive Loading : Progress → Prop where
  | dispatched : Loading ⟨false, true, none, 1, 0, [], [], 1, 0, 0⟩
  | requested (result) : Loading ⟨false, true, some (.loadBlock result), 0, 1, [], [], 1, 0, 0⟩
  | failed (result) : Loading ⟨false, true, some (.loadBlock result), 0, 0, [], [], 1, 1, 0⟩
  | posted (result) : Loading ⟨false, true, none, 0, 0, [result], [], 1, 0, 0⟩

/-- Every call has been answered once with `result`, except the calls in `rest`, which have not
been answered. -/
structure ServedBut (s : State) (result : List ChatBot) (rest : List Nat) : Prop where
  calls : ∀ answer ∈ s.answers, answer.call < s.calls
  result : ∀ answer ∈ s.answers, answer.result = .success result
  once : ∀ call < s.calls, s.invocations call = if call ∈ rest then 0 else 1

/-- A load is under way: every caller so far is waiting for it. -/
structure Underway (s : State) : Prop where
  progress : Loading s.progress
  calls : 0 < s.calls
  pending : s.storeBotsLoadingCompletions = List.range s.calls
  answers : s.answers = []

/-- The phases of a run, with what the completions have been given. -/
inductive Phase (s : State) : Prop where
  | idle (hprogress : s.progress = ⟨false, false, none, 0, 0, [], [], 0, 0, 0⟩)
      (hcalls : s.calls = 0) (hpending : s.storeBotsLoadingCompletions = [])
      (hanswers : s.answers = [])
  | loading (hunderway : Underway s)
  | draining (result : List ChatBot) (rest : List Nat)
      (hprogress : s.progress =
        ⟨true, true, none, 0, 0, [], rest.map .block ++ [.removeAll], 1, 0, 0⟩)
      (hstore : s.loadedBotsInStore = result) (hrest : rest.Nodup)
      (hcalls : ∀ call ∈ rest, call < s.calls) (hserved : ServedBut s result rest)
  | done (result : List ChatBot)
      (hprogress : s.progress = ⟨true, true, none, 0, 0, [], [], 1, 0, 1⟩)
      (hstore : s.loadedBotsInStore = result) (hpending : s.storeBotsLoadingCompletions = [])
      (hserved : ServedBut s result [])

variable {s t : State} {result : List ChatBot} {rest : List Nat}

/-- Who has been served depends on the calls and the answers only. -/
theorem ServedBut.congr (h : ServedBut s result rest) (hcalls : t.calls = s.calls)
    (hanswers : t.answers = s.answers) : ServedBut t result rest := by
  refine ⟨?_, ?_, ?_⟩
  · rw [hanswers, hcalls]
    exact h.calls
  · rw [hanswers]
    exact h.result
  · simpa only [hcalls, State.invocations, hanswers] using h.once

/-- A call that has not been made has not been answered. -/
theorem ServedBut.invocations_eq_zero (h : ServedBut s result rest) {call : Nat}
    (hcall : s.calls ≤ call) : s.invocations call = 0 := by
  apply List.countP_eq_zero.mpr
  intro answer hanswer
  have hmade := h.calls answer hanswer
  simp only [beq_iff_eq]
  omega

/-- A call that is answered at once leaves everybody served as before. -/
theorem ServedBut.call (h : ServedBut s result rest) (hrest : ∀ call ∈ rest, call < s.calls)
    (hcalls : t.calls = s.calls + 1)
    (hanswers : t.answers = s.answers ++ [⟨s.calls, .success result⟩]) :
    ServedBut t result rest := by
  refine ⟨?_, ?_, ?_⟩
  · rw [hanswers, hcalls]
    refine List.forall_mem_append.mpr ⟨fun answer hanswer => ?_, ?_⟩
    · exact Nat.lt_succ_of_lt (h.calls answer hanswer)
    · exact List.forall_mem_singleton.mpr (Nat.lt_succ_self _)
  · rw [hanswers]
    exact List.forall_mem_append.mpr ⟨h.result, List.forall_mem_singleton.mpr rfl⟩
  · intro call hcall
    rw [hcalls] at hcall
    rcases Nat.lt_succ_iff_lt_or_eq.mp hcall with hold | rfl
    · have hne : s.calls ≠ call := by omega
      have honce := h.once call hold
      simp only [State.invocations] at honce ⊢
      simp [hanswers, List.countP_append, honce, hne]
    · have hnew : s.calls ∉ rest := fun hmem => Nat.lt_irrefl _ (hrest _ hmem)
      have hzero := h.invocations_eq_zero (Nat.le_refl s.calls)
      simp only [State.invocations] at hzero ⊢
      simp [hanswers, List.countP_append, hzero, hnew]

/-- The drain answers the next pending call. -/
theorem ServedBut.answer {call : Nat} (h : ServedBut s result (call :: rest))
    (hnodup : (call :: rest).Nodup) (hcall : call < s.calls) (hcalls : t.calls = s.calls)
    (hanswers : t.answers = s.answers ++ [⟨call, .success result⟩]) :
    ServedBut t result rest := by
  refine ⟨?_, ?_, ?_⟩
  · rw [hanswers, hcalls]
    exact List.forall_mem_append.mpr ⟨h.calls, List.forall_mem_singleton.mpr hcall⟩
  · rw [hanswers]
    exact List.forall_mem_append.mpr ⟨h.result, List.forall_mem_singleton.mpr rfl⟩
  · intro other hother
    rw [hcalls] at hother
    have honce := h.once other hother
    have hfresh := (List.nodup_cons.mp hnodup).1
    simp only [State.invocations] at honce ⊢
    by_cases heq : call = other
    · subst heq
      simpa [hanswers, List.countP_append, hfresh] using honce
    · simpa [hanswers, List.countP_append, heq, Ne.symm heq] using honce

/-- A completion is invoked at most once, and not at all before its call. -/
theorem ServedBut.invocations_le (h : ServedBut s result rest) (call : Nat) :
    s.invocations call ≤ 1 := by
  by_cases hcall : call < s.calls
  · rw [h.once call hcall]
    split <;> omega
  · rw [h.invocations_eq_zero (Nat.not_lt.mp hcall)]
    exact Nat.zero_le 1

/-- When the final main block starts, every call so far is pending. -/
theorem servedBut_start (hanswers : s.answers = []) (result : List ChatBot) :
    ServedBut s result (List.range s.calls) := by
  refine ⟨by simp [hanswers], by simp [hanswers], ?_⟩
  intro call hcall
  simp [State.invocations, hanswers, hcall]

/-- A call made when the list has been stored is answered with it at once. -/
theorem botsInStore_of_loaded (h : s.loadedBotsFlag = true) :
    botsInStore s = { s with
      calls := s.calls + 1
      answers := s.answers ++ [⟨s.calls, .success s.loadedBotsInStore⟩] } := by
  simp [botsInStore, h]

@[simp] theorem botsInStore_calls (s : State) : (botsInStore s).calls = s.calls + 1 := by
  unfold botsInStore
  split
  · rfl
  · split <;> rfl

@[simp] theorem botsInStore_requestsFailed (s : State) :
    (botsInStore s).requestsFailed = s.requestsFailed := by
  unfold botsInStore
  split
  · rfl
  · split <;> rfl

namespace Loading

variable {progress : Progress}

/-- While a load is under way, no list has been stored and the main thread is not draining. -/
theorem fields (h : Loading progress) :
    progress.loadedBotsFlag = false ∧ progress.storeBotsLoadingStarted = true ∧
      progress.current = [] ∧ progress.blocksRun = 0 := by
  cases h <;> exact ⟨rfl, rfl, rfl, rfl⟩

/-- The load block runs in the first stage only. -/
theorem dispatched_of_ne (h : Loading progress) (hblocks : progress.loadBlocks ≠ 0) :
    progress = ⟨false, true, none, 1, 0, [], [], 1, 0, 0⟩ := by
  cases h with
  | dispatched => rfl
  | _ => exact absurd rfl hblocks

/-- A request is outstanding in the second stage only. -/
theorem requested_of_ne (h : Loading progress) (hrequests : progress.requests ≠ 0) :
    ∃ result, progress = ⟨false, true, some (.loadBlock result), 0, 1, [], [], 1, 0, 0⟩ := by
  cases h with
  | requested result => exact ⟨result, rfl⟩
  | _ => exact absurd rfl hrequests

/-- The final main block waits in the last stage only. -/
theorem posted_of_ne (h : Loading progress) (hmain : progress.mainBlocks ≠ []) :
    ∃ result, progress = ⟨false, true, none, 0, 0, [result], [], 1, 0, 0⟩ := by
  cases h with
  | posted result => exact ⟨result, rfl⟩
  | _ => exact absurd rfl hmain

theorem loads_started (h : Loading progress) : progress.loadsStarted = 1 := by
  cases h <;> rfl

/-- When nothing is outstanding the request has failed. -/
theorem failed_of_quiescent (h : Loading progress) (hblocks : progress.loadBlocks = 0)
    (hrequests : progress.requests = 0) (hmain : progress.mainBlocks = []) :
    ∃ result, progress = ⟨false, true, some (.loadBlock result), 0, 0, [], [], 1, 1, 0⟩ := by
  cases h with
  | failed result => exact ⟨result, rfl⟩
  | dispatched => cases hblocks
  | requested => cases hrequests
  | posted => cases hmain

end Loading

namespace Phase

/-- Something is outstanding only while the load is under way. -/
theorem underway (h : Phase s)
    (hwork : s.loadBlocks ≠ 0 ∨ s.requests.length ≠ 0 ∨ s.mainBlocks ≠ []) : Underway s := by
  have hidle : ∀ {flag started slot current started' failed run},
      s.progress = ⟨flag, started, slot, 0, 0, [], current, started', failed, run⟩ → False := by
    intro flag started slot current started' failed run hprogress
    rcases hwork with hblocks | hrequests | hmain
    · exact hblocks (congrArg Progress.loadBlocks hprogress)
    · exact hrequests (congrArg Progress.requests hprogress)
    · exact hmain (congrArg Progress.mainBlocks hprogress)
  cases h with
  | loading hunderway => exact hunderway
  | idle hprogress => exact (hidle hprogress).elim
  | draining _ _ hprogress => exact (hidle hprogress).elim
  | done _ hprogress => exact (hidle hprogress).elim

/-- A call of `botsInStore` starts the load, joins it or is answered from the stored list. -/
theorem bots_in_store (h : Phase s) : Phase (botsInStore s) := by
  cases h with
  | idle hprogress hcalls hpending hanswers =>
      simp only [State.progress, Progress.mk.injEq] at hprogress
      obtain ⟨hflag, hstarted, hslot, hblocks, hrequests, hmain, hcurrent, hloads, hfailed, hrun⟩ :=
        hprogress
      refine .loading ⟨?_, ?_, ?_, ?_⟩
      · simpa [botsInStore, hflag, hstarted, State.progress, hslot, hblocks, hrequests,
          hmain, hcurrent, hloads, hfailed, hrun] using Loading.dispatched
      · simp [botsInStore, hflag, hstarted]
      · simp [botsInStore, hflag, hstarted, hcalls, hpending]
      · simp [botsInStore, hflag, hstarted, hanswers]
  | loading hunderway =>
      -- the started flag is set, so the call only joins those that wait
      obtain ⟨hflag, hstarted, -, -⟩ := hunderway.progress.fields
      have hbots : botsInStore s = { s with
          calls := s.calls + 1
          storeBotsLoadingCompletions := s.storeBotsLoadingCompletions ++ [s.calls] } := by
        simp [botsInStore, show s.loadedBotsFlag = false from hflag,
          show s.storeBotsLoadingStarted = true from hstarted]
      rw [hbots]
      exact .loading ⟨hunderway.progress, Nat.succ_pos _,
        by simp [hunderway.pending, List.range_succ], hunderway.answers⟩
  | draining result rest hprogress hstore hrest hcalls hserved =>
      have hflag : s.loadedBotsFlag = true := congrArg Progress.loadedBotsFlag hprogress
      rw [botsInStore_of_loaded hflag]
      exact .draining result rest hprogress hstore hrest
        (fun call hcall => Nat.lt_succ_of_lt (hcalls call hcall))
        (hserved.call hcalls rfl (by rw [hstore]))
  | done result hprogress hstore hpending hserved =>
      have hflag : s.loadedBotsFlag = true := congrArg Progress.loadedBotsFlag hprogress
      rw [botsInStore_of_loaded hflag]
      exact .done result hprogress hstore hpending
        (hserved.call (by simp) rfl (by rw [hstore]))

/-- Only a dispatched load block can run; it makes the one product request. -/
theorem load_block {bundle : List (Option ChatBot)} {name : Option ChatBotId} {fuel : Nat}
    (h : Phase s) (hnext : load bundle s name fuel = some t) : Phase t := by
  have hblock : 0 < s.loadBlocks := by
    by_contra hnone
    simp [load, hnone] at hnext
  have hunderway := h.underway (.inl hblock.ne')
  have hprogress := hunderway.progress.dispatched_of_ne hblock.ne'
  simp only [State.progress, Progress.mk.injEq] at hprogress
  simp only [load, hblock, if_true] at hnext
  obtain ⟨result, -, hnext⟩ := Option.bind_eq_some_iff.mp hnext
  cases hnext
  refine .loading ⟨?_, hunderway.calls, hunderway.pending, hunderway.answers⟩
  have hrequests : s.requests = [] := List.length_eq_zero_iff.mp hprogress.2.2.2.2.1
  simpa [loadProducts, State.progress, hprogress, hrequests] using Loading.requested result

/-- Only in the stage after the load block there is a request, and there is only one. -/
theorem requested (h : Phase s) {i : Nat} {request : ProductsRequest}
    (hrequest : s.requests[i]? = some request) :
    Underway s ∧ (s.requests.eraseIdx i).length = 0 ∧
      ∃ result, s.progress = ⟨false, true, some (.loadBlock result), 0, 1, [], [], 1, 0, 0⟩ := by
  obtain ⟨hlt, -⟩ := List.getElem?_eq_some_iff.mp hrequest
  have hne : s.requests.length ≠ 0 := by omega
  have hunderway := h.underway (.inr (.inl hne))
  obtain ⟨result, hprogress⟩ := hunderway.progress.requested_of_ne hne
  have hone : s.requests.length = 1 := congrArg Progress.requests hprogress
  exact ⟨hunderway, by rw [List.length_eraseIdx_of_lt hlt, hone], result, hprogress⟩

/-- The answer to the request dispatches the final main block. -/
theorem did_receive {i : Nat} {products : List SKProduct} (h : Phase s)
    (hnext : didReceive s i products = some t) : Phase t := by
  obtain ⟨request, hrequest, hnext⟩ := Option.bind_eq_some_iff.mp hnext
  obtain ⟨hunderway, hlength, result, hprogress⟩ := h.requested hrequest
  simp only [State.progress, Progress.mk.injEq] at hprogress
  obtain ⟨hflag, hstarted, hslot, hblocks, hrequests, hmain, hcurrent, hloads, hfailed, hrun⟩ :=
    hprogress
  simp only [hcurrent, if_true, hslot] at hnext
  cases hnext
  refine .loading ⟨?_, hunderway.calls, hunderway.pending, hunderway.answers⟩
  simpa [State.progress, hflag, hstarted, hblocks, hlength, hmain, hloads, hfailed, hrun]
    using Loading.posted result

/-- A failure of the request leaves the load as it is, with nobody to finish it. -/
theorem request_fails {i : Nat} (h : Phase s) (hnext : requestFails s i = some t) : Phase t := by
  obtain ⟨request, hrequest, hnext⟩ := Option.bind_eq_some_iff.mp hnext
  obtain ⟨hunderway, hlength, result, hprogress⟩ := h.requested hrequest
  simp only [State.progress, Progress.mk.injEq] at hprogress
  cases hnext
  refine .loading ⟨?_, hunderway.calls, hunderway.pending, hunderway.answers⟩
  simpa [State.progress, hprogress, hlength] using Loading.failed result

/-- The final main block stores its list and starts on the pending completions. -/
theorem run_block (h : Phase s) (hnext : runBlock s = some t) : Phase t := by
  unfold runBlock at hnext
  split at hnext
  · rename_i result rest hcurrent hmain
    cases hnext
    have hne : s.mainBlocks ≠ [] := by simp [hmain]
    have hunderway := h.underway (.inr (.inr hne))
    obtain ⟨stored, hprogress⟩ := hunderway.progress.posted_of_ne hne
    simp only [State.progress, Progress.mk.injEq, hmain, List.cons.injEq] at hprogress
    refine .draining result (List.range s.calls) ?_ rfl List.nodup_range
      (fun call => List.mem_range.mp) ((servedBut_start hunderway.answers result).congr rfl rfl)
    simp [State.progress, hprogress, hunderway.pending]
  · cases hnext

/-- The final main block answers the next pending call or, after the last, clears the list. -/
theorem continue_step (h : Phase s) (hnext : continueStep s = some t) : Phase t := by
  cases h with
  | idle hprogress =>
      have hcurrent : s.current = [] := congrArg Progress.current hprogress
      simp [continueStep, hcurrent] at hnext
  | loading hunderway =>
      have hcurrent : s.current = [] := hunderway.progress.fields.2.2.1
      simp [continueStep, hcurrent] at hnext
  | done result hprogress =>
      have hcurrent : s.current = [] := congrArg Progress.current hprogress
      simp [continueStep, hcurrent] at hnext
  | draining result rest hprogress hstore hrest hcalls hserved =>
      simp only [State.progress, Progress.mk.injEq] at hprogress
      obtain ⟨hflag, hstarted, hslot, hblocks, hrequests, hmain, hcurrent, hloads, hfailed, hrun⟩ :=
        hprogress
      cases rest with
      | nil =>
          simp only [continueStep, hcurrent, List.map_nil, List.nil_append] at hnext
          cases hnext
          refine .done result ?_ hstore rfl (hserved.congr rfl rfl)
          simp [State.progress, hflag, hstarted, hslot, hblocks, hrequests, hmain, hloads, hfailed,
            hrun]
      | cons call rest =>
          simp only [continueStep, hcurrent, List.map_cons, List.cons_append] at hnext
          cases hnext
          refine .draining result rest ?_ hstore (List.nodup_cons.mp hrest).2
            (fun other hother => hcalls other (List.mem_cons_of_mem _ hother))
            (hserved.answer hrest (hcalls call List.mem_cons_self) rfl (by rw [hstore]))
          simp [State.progress, hflag, hstarted, hslot, hblocks, hrequests, hmain, hloads, hfailed,
            hrun]

variable {bundle : List (Option ChatBot)} {action : Action}

theorem step (h : Phase s) (hok : onlyBotsInStore s action = true)
    (hnext : (machine bundle).next s action = some t) : Phase t := by
  cases action with
  | botsInStore =>
      cases hnext
      exact h.bots_in_store
  | loadProducts bots => cases hok
  | load name fuel => exact h.load_block hnext
  | didReceive i products => exact h.did_receive hnext
  | requestFails i => exact h.request_fails hnext
  | runBlock => exact h.run_block hnext
  | «continue» => exact h.continue_step hnext

end Phase

variable {bundle : List (Option ChatBot)}

theorem Phase.reaches (h : Phase s)
    (hreach : ((machine bundle).restrict onlyBotsInStore).Reaches s t) : Phase t :=
  hreach.restrict_induction h fun _ _ _ _ hphase hok hnext => hphase.step hok hnext

theorem phase_of_reachable (h : ((machine bundle).restrict onlyBotsInStore).Reachable s) :
    Phase s :=
  Phase.reaches (.idle rfl rfl rfl rfl) h

/-- Every load, and with it the final main block, is the first one. -/
theorem Phase.loads_started_le (h : Phase s) : s.loadsStarted ≤ 1 := by
  cases h with
  | idle hprogress => simp [show s.loadsStarted = 0 from congrArg Progress.loadsStarted hprogress]
  | loading hunderway => exact hunderway.progress.loads_started.le
  | draining _ _ hprogress => exact (congrArg Progress.loadsStarted hprogress).le
  | done _ hprogress => exact (congrArg Progress.loadsStarted hprogress).le

/-- In every phase the invocations so far were single ones, all with one result. -/
theorem Phase.answered (h : Phase s) :
    (∀ call, s.invocations call ≤ 1) ∧
    ∀ answer ∈ s.answers, ∀ other ∈ s.answers, answer.result = other.result := by
  have hnone (hanswers : s.answers = []) : (∀ call, s.invocations call ≤ 1) ∧
      ∀ answer ∈ s.answers, ∀ other ∈ s.answers, answer.result = other.result := by
    simp [State.invocations, hanswers]
  have hserved {result rest} (h : ServedBut s result rest) : (∀ call, s.invocations call ≤ 1) ∧
      ∀ answer ∈ s.answers, ∀ other ∈ s.answers, answer.result = other.result :=
    ⟨h.invocations_le, fun answer hanswer other hother =>
      (h.result answer hanswer).trans (h.result other hother).symm⟩
  cases h with
  | idle _ _ _ hanswers => exact hnone hanswers
  | loading hunderway => exact hnone hunderway.answers
  | draining _ _ _ _ _ _ h => exact hserved h
  | done _ _ _ _ h => exact hserved h

/-- Once the final main block has run, every caller has been served and none is waiting. -/
theorem Phase.served_of_blocks_run (h : Phase s) (hrun : 0 < s.blocksRun) :
    s.progress = ⟨true, true, none, 0, 0, [], [], 1, 0, 1⟩ ∧
      s.storeBotsLoadingCompletions = [] ∧ ∀ call < s.calls, s.invocations call = 1 := by
  cases h with
  | idle hprogress =>
      have hnone : s.blocksRun = 0 := congrArg Progress.blocksRun hprogress
      omega
  | loading hunderway =>
      have hnone : s.blocksRun = 0 := hunderway.progress.fields.2.2.2
      omega
  | draining _ _ hprogress =>
      have hnone : s.blocksRun = 0 := congrArg Progress.blocksRun hprogress
      omega
  | done result hprogress _ hpending hserved =>
      exact ⟨hprogress, hpending, fun call hcall => by simpa using hserved.once call hcall⟩

/-- Once the final main block has run, nothing but calls of `botsInStore` can happen. -/
theorem Phase.next_of_blocks_run (h : Phase s) (hrun : 0 < s.blocksRun)
    (hok : onlyBotsInStore s action = true)
    (hnext : (machine bundle).next s action = some t) : t = botsInStore s := by
  obtain ⟨hprogress, -, -⟩ := h.served_of_blocks_run hrun
  simp only [State.progress, Progress.mk.injEq] at hprogress
  obtain ⟨hflag, hstarted, hslot, hblocks, hrequests, hmain, hcurrent, -⟩ := hprogress
  have hnone : s.requests = [] := List.length_eq_zero_iff.mp hrequests
  cases action with
  | botsInStore => exact (Option.some.inj hnext).symm
  | loadProducts bots => cases hok
  | load name fuel => simp [machine, load, hblocks] at hnext
  | didReceive i products => simp [machine, didReceive, hnone] at hnext
  | requestFails i => simp [machine, requestFails, hnone] at hnext
  | runBlock => simp [machine, runBlock, hmain] at hnext
  | «continue» => simp [machine, continueStep, hcurrent] at hnext

/-- Once the final main block has run, the stored list stays. -/
theorem Phase.stored_of_blocks_run (h : Phase s) (hrun : 0 < s.blocksRun)
    (hreach : ((machine bundle).restrict onlyBotsInStore).Reaches s t) :
    t.loadedBotsInStore = s.loadedBotsInStore := by
  have hkept : Phase t ∧ 0 < t.blocksRun ∧ t.loadedBotsInStore = s.loadedBotsInStore := by
    refine hreach.restrict_induction (P := fun state => Phase state ∧ 0 < state.blocksRun ∧
      state.loadedBotsInStore = s.loadedBotsInStore) ⟨h, hrun, rfl⟩ ?_
    intro state action following _ hstate hok hnext
    obtain ⟨hphase, hrun, hstored⟩ := hstate
    have hflag : state.loadedBotsFlag = true :=
      congrArg Progress.loadedBotsFlag (hphase.served_of_blocks_run hrun).1
    have hcall := hphase.next_of_blocks_run hrun hok hnext
    rw [botsInStore_of_loaded hflag] at hcall
    exact ⟨hphase.step hok hnext, by rw [hcall]; exact hrun, by rw [hcall]; exact hstored⟩
  exact hkept.2.2

/-- A run without failed requests is a run in which only `botsInStore` calls `loadProducts`. -/
theorem reaches_of_only_answered (h : ((machine bundle).restrict onlyAnswered).Reaches s t) :
    ((machine bundle).restrict onlyBotsInStore).Reaches s t := by
  refine h.restrict_mono fun state action hok => ?_
  cases action <;> first | exact hok | rfl

/-- The store is loaded once and everybody is served the same list, in every run in which the
product request does not fail and nobody else calls `loadProducts`. -/
theorem loaded_once (h : ((machine bundle).restrict onlyAnswered).Reachable s) :
    s.loadsStarted ≤ 1 ∧
    (∀ call, s.invocations call ≤ 1) ∧
    (∀ answer ∈ s.answers, ∀ other ∈ s.answers, answer.result = other.result) ∧
    (0 < s.blocksRun →
      s.loadedBotsFlag = true ∧
      (∀ call < s.calls, s.invocations call = 1) ∧
      s.storeBotsLoadingCompletions = [] ∧
      ∀ t, ((machine bundle).restrict onlyAnswered).Reaches s t →
        t.loadedBotsInStore = s.loadedBotsInStore) := by
  have hphase := phase_of_reachable (reaches_of_only_answered h)
  refine ⟨hphase.loads_started_le, hphase.answered.1, hphase.answered.2, fun hrun => ?_⟩
  obtain ⟨hprogress, hpending, honce⟩ := hphase.served_of_blocks_run hrun
  exact ⟨congrArg Progress.loadedBotsFlag hprogress, honce, hpending, fun t hreach =>
    hphase.stored_of_blocks_run hrun (reaches_of_only_answered hreach)⟩

/-- Callers before, during and after the load of a bundle of one bot; the third one calls while
the completion of the first is running. -/
theorem loaded_once_run : ∃ s : State,
    ((machine [some (ChatBot.named "a")]).restrict onlyAnswered).Reachable s ∧
    s.calls = 4 ∧ s.blocksRun = 1 ∧ s.loadsStarted ≤ 1 ∧ ∀ call, s.invocations call ≤ 1 := by
  have hreach : ((machine [some (ChatBot.named "a")]).restrict onlyAnswered).Reachable _ :=
    ⟨[.botsInStore, .load (some "a") 3, .botsInStore, .didReceive 0 [], .runBlock, .continue,
      .botsInStore, .continue, .continue, .botsInStore], rfl⟩
  obtain ⟨hloads, hinvocations, -⟩ := loaded_once hreach
  exact ⟨_, hreach, rfl, rfl, hloads, hinvocations⟩

/-- In a quiescent state nothing is left of the load, unless its request failed. -/
theorem Phase.served_or_failed (h : Phase s) (hquiescent : s.Quiescent) :
    (s.requestsFailed = 0 ∧ s.storeBotsLoadingCompletions = [] ∧
      ∀ call < s.calls, s.invocations call = 1) ∨
    (0 < s.requestsFailed ∧ Underway s) := by
  obtain ⟨hblocks, hrequests, hmain, hcurrent⟩ := hquiescent
  cases h with
  | idle hprogress hcalls hpending hanswers =>
      exact .inl ⟨congrArg Progress.requestsFailed hprogress, hpending, by simp [hcalls]⟩
  | loading hunderway =>
      obtain ⟨result, hstage⟩ := hunderway.progress.failed_of_quiescent hblocks
        (by simp [State.progress, hrequests]) hmain
      have hfailed : s.requestsFailed = 1 := congrArg Progress.requestsFailed hstage
      exact .inr ⟨by omega, hunderway⟩
  | draining result rest hprogress =>
      have hsome : s.current = rest.map .block ++ [.removeAll] :=
        congrArg Progress.current hprogress
      simp [hcurrent] at hsome
  | done result hprogress _ hpending hserved =>
      exact .inl ⟨congrArg Progress.requestsFailed hprogress, hpending,
        fun call hcall => by simpa using hserved.once call hcall⟩

/-- Without failures the count of failures stays, and calls are never forgotten. -/
theorem next_calls_le (hok : onlyAnswered s action = true)
    (hnext : (machine bundle).next s action = some t) :
    s.calls ≤ t.calls ∧ t.requestsFailed = s.requestsFailed := by
  cases action with
  | botsInStore =>
      cases hnext
      rw [botsInStore_calls, botsInStore_requestsFailed]
      exact ⟨Nat.le_succ _, rfl⟩
  | loadProducts bots => cases hok
  | load name fuel =>
      simp only [machine, load] at hnext
      split at hnext
      · obtain ⟨result, -, hnext⟩ := Option.bind_eq_some_iff.mp hnext
        cases hnext
        exact ⟨le_rfl, rfl⟩
      · cases hnext
  | didReceive i products =>
      obtain ⟨request, -, hnext⟩ := Option.bind_eq_some_iff.mp hnext
      split at hnext
      · split at hnext <;> cases hnext <;> exact ⟨le_rfl, rfl⟩
      · cases hnext
  | requestFails i => cases hok
  | runBlock =>
      simp only [machine, runBlock] at hnext
      split at hnext <;> cases hnext
      exact ⟨le_rfl, rfl⟩
  | «continue» =>
      simp only [machine, continueStep] at hnext
      split at hnext <;> cases hnext <;> exact ⟨le_rfl, rfl⟩

theorem reaches_calls_le (h : ((machine bundle).restrict onlyAnswered).Reaches s t) :
    s.calls ≤ t.calls ∧ t.requestsFailed = s.requestsFailed := by
  refine h.restrict_induction (P := fun state => s.calls ≤ state.calls ∧
    state.requestsFailed = s.requestsFailed) ⟨le_rfl, rfl⟩ ?_
  intro state action following _ hstate hok hnext
  obtain ⟨hle, heq⟩ := next_calls_le hok hnext
  exact ⟨hstate.1.trans hle, heq.trans hstate.2⟩

/-- A state in which the store serves its callers: none is waiting, each has been answered
once, and a call made now is answered once in every quiescent state that is reached from it
without a failure. -/
structure Serves (bundle : List (Option ChatBot)) (s : State) : Prop where
  pending : s.storeBotsLoadingCompletions = []
  once : ∀ call < s.calls, s.invocations call = 1
  again : ∀ t, ((machine bundle).restrict onlyAnswered).Reaches (botsInStore s) t →
    t.Quiescent → t.invocations s.calls = 1

/-- In a quiescent state every caller has been served and the next one will be, if and only if
no product request has failed: a failed request leaves the flag of the load set and nobody to
finish the load. -/
theorem served_iff (h : ((machine bundle).restrict onlyBotsInStore).Reachable s)
    (hquiescent : s.Quiescent) : Serves bundle s ↔ s.requestsFailed = 0 := by
  constructor
  · intro hserves
    rcases (phase_of_reachable h).served_or_failed hquiescent with ⟨hnone, -⟩ | ⟨-, hunderway⟩
    · exact hnone
    · have hcalls := hunderway.calls
      have hpending := hserves.pending ▸ hunderway.pending
      simp [List.range_eq_nil.mp hpending.symm] at hcalls
  · intro hnone
    rcases (phase_of_reachable h).served_or_failed hquiescent with
      ⟨-, hpending, honce⟩ | ⟨hfailed, -⟩
    · refine ⟨hpending, honce, fun t hreach ht => ?_⟩
      have hcall : ((machine bundle).restrict onlyBotsInStore).Reaches s (botsInStore s) :=
        ⟨[.botsInStore], rfl⟩
      have hphase := phase_of_reachable ((h.trans hcall).trans (reaches_of_only_answered hreach))
      obtain ⟨hcalls, hfailed⟩ := reaches_calls_le hreach
      rw [botsInStore_calls] at hcalls
      rw [botsInStore_requestsFailed, hnone] at hfailed
      rcases hphase.served_or_failed ht with ⟨-, -, hserved⟩ | ⟨hsome, -⟩
      · exact hserved s.calls hcalls
      · omega
    · omega

/-- The end of a run with two callers. -/
theorem served_iff_run : ∃ s : State,
    ((machine [some (ChatBot.named "a")]).restrict onlyBotsInStore).Reachable s ∧
    s.Quiescent ∧ s.calls = 2 ∧
    (Serves [some (ChatBot.named "a")] s ↔ s.requestsFailed = 0) := by
  obtain ⟨s, hreach, hquiescent, hcalls⟩ :=
    ((machine [some (ChatBot.named "a")]).restrict onlyBotsInStore).exists_reachable
      [.botsInStore, .load (some "a") 3, .botsInStore, .didReceive 0 [], .runBlock, .continue,
        .continue, .continue]
      (fun s => s.Quiescent ∧ s.calls = 2) (by decide)
  exact ⟨s, hreach, hquiescent, hcalls, served_iff hreach hquiescent⟩

/-- When the request of the first call fails, its completion waits for ever, and so does that
of every later call. -/
theorem not_served : ∃ s : State,
    ((machine [some (ChatBot.named "a")]).restrict onlyBotsInStore).Reachable s ∧ s.Quiescent ∧
    s.storeBotsLoadingCompletions = [0] ∧ s.invocations 0 = 0 ∧
    (botsInStore s).Quiescent ∧ (botsInStore s).invocations 1 = 0 :=
  Machine.exists_reachable _ [.botsInStore, .load (some "a") 3, .requestFails 0]
    (fun s => s.Quiescent ∧ s.storeBotsLoadingCompletions = [0] ∧ s.invocations 0 = 0 ∧
      (botsInStore s).Quiescent ∧ (botsInStore s).invocations 1 = 0) (by decide)

end AiGramLib.Loader
