import AiGramLib.Store.Loader

/-!
# Overlapping product requests

`loadProducts` has one slot for the completion of a request, and the wrapper that it stores there
clears the slot after the completion. `products_loaded` says that every completion is called
once, and not before the answer to its own request, in the runs in which no call overlaps another
one: none is made while a request is outstanding or from inside a completion. By
`overlapping_call_loses`, any call that does loses a completion for ever.

The callers of `loadProducts` are all alike here, so the load block of `botsInStore` is one of
them.
-/

namespace AiGramLib.Loader

open Transition

/-- The calls of `loadProducts`, the answers to their requests, and what completions do after
that. -/
def productsOnly (_ : State) : Action → Bool
  | .loadProducts _ => true
  | .didReceive _ _ => true
  | .continue => true
  | _ => false

/-- Moreover `loadProducts` is called only when no request is outstanding and no completion is
being executed. -/
def withoutOverlap (s : State) : Action → Bool
  | .loadProducts _ => s.requests.isEmpty && s.current.isEmpty
  | action => productsOnly s action

/-- The completions that have been called, in order. -/
def State.productsCalled (s : State) : List Nat := s.productsAnswers.map Prod.fst

/-- No completion is called twice or before the response to its own request has been stored, and
none has been left out when all requests have been answered. -/
structure ProductsLoaded (s : State) : Prop where
  once : s.productsCalled.Nodup
  stored : ∀ answer ∈ s.productsAnswers, answer.1 ∈ answer.2
  all : s.requests = [] → s.current = [] →
    ∀ call < s.requestsStarted, call ∈ s.productsCalled

/-- The completions of the first `n` calls have been called in order, each when the response to
its request had been stored. -/
structure ServedUpTo (s : State) (n : Nat) : Prop where
  called : s.productsCalled = List.range n
  stored : ∀ answer ∈ s.productsAnswers, answer.1 ∈ answer.2

/-- Where a run without overlap stands: between two calls, at a request, or in a completion. -/
inductive Turn (s : State) : Prop where
  | idle (hrequests : s.requests = []) (hcurrent : s.current = [])
      (hserved : ServedUpTo s s.requestsStarted)
  | waiting (request : ProductsRequest) (hrequests : s.requests = [request])
      (hcurrent : s.current = []) (hslot : s.productsCompletion = some (.client request.number))
      (hstarted : s.requestsStarted = request.number + 1)
      (hserved : ServedUpTo s request.number)
  | returning (hrequests : s.requests = []) (hcurrent : s.current = [.clearProductsCompletion])
      (hserved : ServedUpTo s s.requestsStarted)

variable {bundle : List (Option ChatBot)} {s t : State}

/-- A call makes a request and puts its completion in the slot. -/
theorem Turn.load_products (h : Turn s) (bots : List ChatBot) (hrequests : s.requests = [])
    (hcurrent : s.current = []) : Turn (loadProducts s bots (.client s.requestsStarted)) := by
  refine .waiting ⟨s.requestsStarted, (bots.map idOfBot).toFinset⟩ ?_ hcurrent rfl rfl ?_
  · simp [loadProducts, hrequests]
  · cases h with
    | idle _ _ hserved => exact ⟨hserved.called, hserved.stored⟩
    | waiting request hone => simp [hone] at hrequests
    | returning _ hclear => simp [hclear] at hcurrent

/-- The answer to the one request calls the completion of its own call. -/
theorem Turn.did_receive (h : Turn s) {i : Nat} {products : List SKProduct}
    (hnext : didReceive s i products = some t) : Turn t := by
  obtain ⟨request, hrequest, hnext⟩ := Option.bind_eq_some_iff.mp hnext
  cases h with
  | idle hrequests => simp [hrequests] at hrequest
  | returning hrequests => simp [hrequests] at hrequest
  | waiting own hrequests hcurrent hslot hstarted hserved =>
      have hi : i = 0 ∧ own = request := by
        rw [hrequests] at hrequest
        cases i with
        | zero => exact ⟨rfl, Option.some.inj hrequest⟩
        | succ i => cases hrequest
      obtain ⟨rfl, rfl⟩ := hi
      simp only [hcurrent, if_true, hslot] at hnext
      cases hnext
      refine .returning (by simp [hrequests]) rfl ⟨?_, fun answer hanswer => ?_⟩
      · rw [hstarted, List.range_succ, ← hserved.called]
        simp [State.productsCalled]
      · rcases List.mem_append.mp hanswer with hold | hnew
        · exact hserved.stored answer hold
        · obtain rfl := List.mem_singleton.mp hnew
          simp

/-- After the completion the slot is cleared. -/
theorem Turn.continue_step (h : Turn s) (hnext : continueStep s = some t) : Turn t := by
  cases h with
  | idle _ hcurrent => simp [continueStep, hcurrent] at hnext
  | waiting _ _ hcurrent => simp [continueStep, hcurrent] at hnext
  | returning hrequests hcurrent hserved =>
      simp only [continueStep, hcurrent] at hnext
      cases hnext
      exact .idle hrequests rfl ⟨hserved.called, hserved.stored⟩

theorem turn_of_reachable (h : ((machine bundle).restrict withoutOverlap).Reachable s) :
    Turn s := by
  refine h.restrict_induction (.idle rfl rfl ⟨rfl, fun answer hanswer => by cases hanswer⟩)
    fun state action following _ hturn hok hnext => ?_
  cases action with
  | loadProducts bots =>
      cases hnext
      simp only [withoutOverlap, Bool.and_eq_true, List.isEmpty_iff] at hok
      exact hturn.load_products bots hok.1 hok.2
  | didReceive i products => exact hturn.did_receive hnext
  | «continue» => exact hturn.continue_step hnext
  | botsInStore | load | requestFails | runBlock => cases hok

theorem ServedUpTo.loaded {n : Nat} (h : ServedUpTo s n)
    (hall : s.requests = [] → s.current = [] → s.requestsStarted = n) : ProductsLoaded s where
  once := by
    rw [h.called]
    exact List.nodup_range
  stored := h.stored
  all := by
    intro hrequests hcurrent call hcall
    rw [h.called, List.mem_range, ← hall hrequests hcurrent]
    exact hcall

/-- In every run without overlap the completions are called once each, after the responses to
their own requests. -/
theorem products_loaded (h : ((machine bundle).restrict withoutOverlap).Reachable s) :
    ProductsLoaded s := by
  cases turn_of_reachable h with
  | idle _ _ hserved => exact hserved.loaded fun _ _ => rfl
  | waiting request hrequests _ _ _ hserved =>
      exact hserved.loaded fun hnone _ => by simp [hrequests] at hnone
  | returning _ _ hserved => exact hserved.loaded fun _ _ => rfl

/-- The completion of a call has not been called, and it is not in the slot, or only until the
slot is cleared. -/
structure Lost (call : Nat) (s : State) : Prop where
  made : call < s.requestsStarted
  not_called : call ∉ s.productsCalled
  slot : s.productsCompletion = some (.client call) → s.current = [.clearProductsCompletion]

theorem Lost.step {call : Nat} (h : Lost call s) {action : Action}
    (hok : productsOnly s action = true) (hnext : (machine bundle).next s action = some t) :
    Lost call t := by
  cases action with
  | loadProducts bots =>
      cases hnext
      refine ⟨Nat.lt_succ_of_lt h.made, h.not_called, fun hslot => ?_⟩
      have hsame : s.requestsStarted = call := by simpa [loadProducts] using hslot
      exact absurd hsame (Nat.ne_of_gt h.made)
  | didReceive i products =>
      obtain ⟨request, -, hnext⟩ := Option.bind_eq_some_iff.mp hnext
      split at hnext
      · rename_i hcurrent
        -- no completion is being executed, so the lost one is not in the slot
        have hother : s.productsCompletion ≠ some (.client call) := by
          intro hslot
          simpa [hcurrent] using h.slot hslot
        split at hnext
        · cases hnext
          exact ⟨h.made, h.not_called, fun hslot => by cases hslot⟩
        · rename_i own hslot
          cases hnext
          have hne : call ≠ own := by
            rintro rfl
            exact hother hslot
          refine ⟨h.made, ?_, fun hsame => absurd hsame hother⟩
          simpa [State.productsCalled, hne] using h.not_called
        · cases hnext
          exact ⟨h.made, h.not_called, fun hslot => absurd hslot hother⟩
      · cases hnext
  | «continue» =>
      simp only [machine, continueStep] at hnext
      split at hnext
      · cases hnext
      · rename_i hcurrent
        cases hnext
        exact ⟨h.made, h.not_called, fun hslot => by simpa [hcurrent] using h.slot hslot⟩
      · rename_i hcurrent
        cases hnext
        exact ⟨h.made, h.not_called, fun hslot => by simpa [hcurrent] using h.slot hslot⟩
      · cases hnext
        exact ⟨h.made, h.not_called, fun hslot => by cases hslot⟩
  | botsInStore | load | requestFails | runBlock => cases hok

/-- A call that overlaps loses a completion: its own, or that of the request outstanding. The
condition of `products_loaded` cannot be dropped for a single call. -/
theorem overlapping_call_loses (h : ((machine bundle).restrict withoutOverlap).Reachable s)
    (bots : List ChatBot) (hoverlap : withoutOverlap s (.loadProducts bots) = false) :
    ∃ call, ∀ t, ((machine bundle).restrict productsOnly).Reaches
      (loadProducts s bots (.client s.requestsStarted)) t →
      call < t.requestsStarted ∧ call ∉ t.productsCalled := by
  have hlost : ∃ call, Lost call (loadProducts s bots (.client s.requestsStarted)) := by
    cases turn_of_reachable h with
    | idle hrequests hcurrent => simp [withoutOverlap, hrequests, hcurrent] at hoverlap
    | waiting request hrequests hcurrent hslot hstarted hserved =>
        refine ⟨request.number, ?_, ?_, fun hsame => ?_⟩
        · show request.number < s.requestsStarted + 1
          omega
        · show request.number ∉ s.productsCalled
          simp [hserved.called]
        · simp [loadProducts, hstarted] at hsame
    | returning hrequests hcurrent hserved =>
        refine ⟨s.requestsStarted, Nat.lt_succ_self _, ?_, fun _ => hcurrent⟩
        show s.requestsStarted ∉ s.productsCalled
        simp [hserved.called]
  obtain ⟨call, hlost⟩ := hlost
  refine ⟨call, fun t ht => ?_⟩
  have hlast := ht.restrict_induction hlost fun _ _ _ _ hstate hok hnext => hstate.step hok hnext
  exact ⟨hlast.made, hlast.not_called⟩

/-- Two calls, one after the other. -/
theorem products_loaded_run : ∃ s : State, ((machine []).restrict withoutOverlap).Reachable s ∧
    s.requestsStarted = 2 ∧ s.productsCalled = [0, 1] ∧ ProductsLoaded s := by
  obtain ⟨s, hreach, hstarted, hcalled⟩ :=
    ((machine []).restrict withoutOverlap).exists_reachable
      [.loadProducts [.named "a"], .didReceive 0 [], .continue, .loadProducts [.named "b"],
        .didReceive 0 [], .continue]
      (fun s => s.requestsStarted = 2 ∧ s.productsCalled = [0, 1]) (by decide)
  exact ⟨s, hreach, hstarted, hcalled, products_loaded hreach⟩

/-- With two requests outstanding, the first answer calls the completion of the second one, and
the second answer calls none. A call from inside a completion never has its own one called. -/
theorem products_not_loaded :
    (∃ s, ((machine []).restrict productsOnly).Reachable s ∧ s.requestsStarted = 2 ∧
      s.productsAnswers = [(1, [0])] ∧ ¬ ProductsLoaded s) ∧
    ∃ s, ((machine []).restrict productsOnly).Reachable s ∧ s.requestsStarted = 2 ∧
      s.productsAnswers = [(0, [0])] ∧ ¬ ProductsLoaded s := by
  constructor
  · obtain ⟨s, hreach, hstarted, hanswers⟩ :=
      ((machine []).restrict productsOnly).exists_reachable
        [.loadProducts [.named "a"], .loadProducts [.named "b"], .didReceive 0 [], .continue,
          .didReceive 0 []]
        (fun s => s.requestsStarted = 2 ∧ s.productsAnswers = [(1, [0])]) (by decide)
    refine ⟨s, hreach, hstarted, hanswers, fun hloaded => ?_⟩
    have hstored := hloaded.stored (1, [0]) (by simp [hanswers])
    simp at hstored
  · obtain ⟨s, hreach, hstarted, hanswers, hrequests, hcurrent⟩ :=
      ((machine []).restrict productsOnly).exists_reachable
        [.loadProducts [.named "a"], .didReceive 0 [], .loadProducts [.named "b"], .continue,
          .didReceive 0 []]
        (fun s => s.requestsStarted = 2 ∧ s.productsAnswers = [(0, [0])] ∧ s.requests = [] ∧
          s.current = []) (by decide)
    refine ⟨s, hreach, hstarted, hanswers, fun hloaded => ?_⟩
    have hall := hloaded.all hrequests hcurrent 1 (by omega)
    simp [State.productsCalled, hanswers] at hall

end AiGramLib.Loader
