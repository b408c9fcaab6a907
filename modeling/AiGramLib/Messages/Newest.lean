import AiGramLib.Messages.Order

/-!
# When the newest request is answered

Requests are recognised by their messages only, and `lastMessages` is cleared by whichever
request with the newest messages finishes first. So the newest request goes without an answer
exactly if an older one with the same messages was still unfinished when it was made:
`newest_answered_iff`. The invariant `Newest` follows the requests that were ahead of the
newest one as their blocks run.
-/

namespace AiGramLib.Messages

open Transition

variable {Message : Type} [DecidableEq Message]

/-- What has become of the newest call `call`. While it is unfinished, the requests that were
ahead of it have passed or are still pending, and `lastMessages` has been cleared if one that
passed had the same messages. -/
inductive Newest (s : State Message) : Prop where
  | noCall (hcalls : s.calls = [])
  | waiting (call : Call Message) (passed : List (List Message))
      (hlast : s.calls.getLast? = some call) (hpending : s.pending ≠ [])
      (hahead : call.ahead = passed ++ s.pending.dropLast.map Request.messages)
      (hmessages : s.lastMessages = if call.messages ∈ passed then none else some call.messages)
  | finished (call : Call Message) (hlast : s.calls.getLast? = some call)
      (hpending : s.pending = []) (hmessages : s.lastMessages = none)
      (hanswered : (∃ answer ∈ s.answers, answer.block.request.call = s.calls.length - 1) ↔
        call.messages ∉ call.ahead)

variable {s t : State Message}

omit [DecidableEq Message] in
/-- If only one request is unfinished, it is the newest call. -/
theorem Ordered.last (h : Ordered s) {request : Request Message} (hpending : s.pending = [request])
    {call : Call Message} (hlast : s.calls.getLast? = some call) :
    request.call = s.calls.length - 1 ∧ request.messages = call.messages := by
  obtain ⟨hcall, hown, hlt, hrest⟩ := h.head hpending
  have hend : s.calls.length = s.handled + 1 := by
    have hlength := congrArg List.length hrest
    simp only [List.length_nil, List.length_drop, length_requests] at hlength
    omega
  have hindex : request.call = s.calls.length - 1 := by omega
  refine ⟨hindex, ?_⟩
  rw [hindex, ← List.getLast?_eq_getElem?, hlast] at hown
  exact (Option.some.inj hown).symm

/-- A request that was ahead of the newest one passes. -/
theorem Newest.pass {call : Call Message} {passed : List (List Message)} {block : Block Message}
    (hlast : s.calls.getLast? = some call)
    (hahead : call.ahead = passed ++ s.pending.dropLast.map Request.messages)
    (hpending : s.pending = block.request :: t.pending) (hmore : t.pending ≠ [])
    (hcalls : t.calls = s.calls)
    (hmessages : t.lastMessages =
      if call.messages ∈ passed ++ [block.request.messages] then none else some call.messages) :
    Newest t := by
  refine .waiting call (passed ++ [block.request.messages]) (by rw [hcalls]; exact hlast) hmore
    ?_ hmessages
  rw [hahead, hpending, List.dropLast_cons_of_ne_nil hmore]
  simp

/-- While a request is pending, the newest one is waiting. -/
theorem Newest.waiting_of_pending (h : Newest s) (hordered : Ordered s)
    {request : Request Message} {rest : List (Request Message)}
    (hpending : s.pending = request :: rest) :
    ∃ call passed, s.calls.getLast? = some call ∧
      call.ahead = passed ++ s.pending.dropLast.map Request.messages ∧
      s.lastMessages = if call.messages ∈ passed then none else some call.messages := by
  cases h with
  | noCall hnone =>
      have hlt := (hordered.head hpending).2.2.1
      simp [hnone] at hlt
  | finished call hlast hdone => simp [hdone] at hpending
  | waiting call passed hlast _ hahead hmessages => exact ⟨call, passed, hlast, hahead, hmessages⟩

/-- A pending request is answered: the newest one waits on, or it is this one. -/
theorem Newest.answered (h : Newest s) (hordered : Ordered s) {block : Block Message}
    (hpending : s.pending = block.request :: t.pending)
    (hmatch : s.lastMessages = some block.request.messages) (hcleared : t.lastMessages = none)
    (hcalls : t.calls = s.calls)
    (hanswer : ∃ answer ∈ t.answers, answer.block.request = block.request) : Newest t := by
  obtain ⟨call, passed, hlast, hahead, hmessages⟩ := h.waiting_of_pending hordered hpending
  have hfree : call.messages ∉ passed := by
    intro hmem
    rw [hmessages, if_pos hmem] at hmatch
    cases hmatch
  rw [hmessages, if_neg hfree] at hmatch
  by_cases hmore : t.pending = []
  · rw [hmore] at hpending
    refine .finished call (by rw [hcalls]; exact hlast) hmore hcleared ?_
    obtain ⟨answer, hmem, hrequest⟩ := hanswer
    have hnew : ∃ answer ∈ t.answers, answer.block.request.call = t.calls.length - 1 :=
      ⟨answer, hmem, by rw [hrequest, hcalls]; exact (hordered.last hpending hlast).1⟩
    refine iff_of_true hnew ?_
    simpa [hahead, hpending] using hfree
  · refine Newest.pass hlast hahead hpending hmore hcalls ?_
    rw [hcleared, if_pos]
    simp [Option.some.inj hmatch]

/-- A pending request is dropped: the newest one waits on, or it is this one, and an equal one
has passed before. -/
theorem Newest.dropped (h : Newest s) (hordered : Ordered s) (hhonest : Honest s)
    {block : Block Message} (hpending : s.pending = block.request :: t.pending)
    (hmatch : s.lastMessages ≠ some block.request.messages)
    (hkept : t.lastMessages = s.lastMessages) (hcalls : t.calls = s.calls)
    (hanswers : t.answers = s.answers) : Newest t := by
  obtain ⟨call, passed, hlast, hahead, hmessages⟩ := h.waiting_of_pending hordered hpending
  by_cases hmore : t.pending = []
  · rw [hmore] at hpending
    obtain ⟨hindex, hown⟩ := hordered.last hpending hlast
    have hmem : call.messages ∈ passed := by
      by_contra hfree
      rw [hmessages, if_neg hfree, hown] at hmatch
      exact hmatch rfl
    rw [hmessages, if_pos hmem] at hkept
    refine .finished call (by rw [hcalls]; exact hlast) hmore hkept (iff_of_false ?_ ?_)
    · rintro ⟨answer, hanswer, hcall⟩
      rw [hanswers] at hanswer
      have hearly := hhonest.handled answer hanswer
      have hhead := (hordered.head hpending).1
      rw [hcalls] at hcall
      omega
    · simpa [hahead, hpending] using hmem
  · refine Newest.pass hlast hahead hpending hmore hcalls ?_
    rw [hkept, hmessages]
    by_cases hmem : call.messages ∈ passed
    · simp [hmem]
    · have hne : call.messages ≠ block.request.messages := by
        rintro heq
        rw [hmessages, if_neg hmem, heq] at hmatch
        exact hmatch rfl
      simp [hmem, hne]

/-- Every step keeps track of the newest call. -/
theorem Newest.step (h : Newest s) (hordered : Ordered s) (hhonest : Honest s)
    (heffect : Effect s t) : Newest t := by
  cases heffect with
  | called messages ht =>
      subst ht
      refine .waiting ⟨messages, s.pending.map Request.messages⟩ [] (by simp [call]) ?_ ?_ ?_
      · simp [pending_call]
      · simp [pending_call]
      · simp [call]
  | internal hpending hmessages _ hcalls hanswers =>
      cases h with
      | noCall hnone => exact .noCall (hcalls.trans hnone)
      | waiting call passed hlast hmore hahead hmatch =>
          exact .waiting call passed (by rw [hcalls]; exact hlast) (by rw [hpending]; exact hmore)
            (by rw [hpending]; exact hahead) (hmessages.trans hmatch)
      | finished call hlast hdone hnone hanswered =>
          exact .finished call (by rw [hcalls]; exact hlast) (hpending.trans hdone)
            (hmessages.trans hnone) (by rw [hanswers, hcalls]; exact hanswered)
  | answered block hpending hmatch hcleared _ hcalls hanswers =>
      refine h.answered hordered hpending hmatch hcleared hcalls ?_
      exact ⟨_, by rw [hanswers]; exact List.mem_append_right _ List.mem_cons_self, rfl⟩
  | dropped block hpending hmatch hkept _ hcalls hanswers =>
      exact h.dropped hordered hhonest hpending hmatch hkept hcalls hanswers

variable {process : ChatBot → List Message → ChatBotResult}

theorem newest_of_reachable (h : (machine process).Reachable s) : Newest s :=
  h.induction (P := Newest) (.noCall rfl) fun _ _ _ hreach hnewest hnext =>
    hnewest.step (ordered_and_honest_of_reachable hreach).1
      (ordered_and_honest_of_reachable hreach).2 (step_effect hnext)

/-- Once nothing is left to run, the completion of the newest call has been invoked exactly
once if and only if no request with the same messages was unfinished when it was made. -/
theorem newest_answered_iff (h : (machine process).Reachable s) (hquiescent : s.Quiescent)
    {call : Call Message} (hlast : s.calls.getLast? = some call) :
    (s.answers.countP fun answer => answer.block.request.call == s.calls.length - 1) = 1 ↔
      call.messages ∉ call.ahead := by
  have hnone : s.pending = [] := by
    obtain ⟨hqueue, hrunning, hmain⟩ := hquiescent
    simp [State.pending, hqueue, hrunning, hmain]
  have hsorted := (ordered_and_honest_of_reachable h).2.ordered
  have hcount := countP_eq_one_iff_of_pairwise hsorted (s.calls.length - 1)
  cases newest_of_reachable h with
  | noCall hcalls => simp [hcalls] at hlast
  | waiting _ _ _ hpending => exact absurd hnone hpending
  | finished newest hnewest _ _ hanswered =>
      rw [hlast] at hnewest
      cases hnewest
      exact hcount.trans hanswered

/-- A repeated request, made after the first one has been answered, is answered too. -/
theorem newest_answered_iff_run :
    ∃ s : State String, (machine fun bot (_ : List String) => ⟨bot, []⟩).Reachable s ∧
      s.Quiescent ∧
      ((s.answers.countP fun answer => answer.block.request.call == s.calls.length - 1) = 1 ↔
        ["a"] ∉ ([] : List (List String))) := by
  have hreach : (machine fun bot (_ : List String) => ⟨bot, []⟩).Reachable _ :=
    ⟨[.handleMessages ["a"], .start [] fun _ => none, .finish, .runBlock,
      .handleMessages ["a"], .start [] fun _ => none, .finish, .runBlock], rfl⟩
  exact ⟨_, hreach, ⟨rfl, rfl, rfl⟩,
    @newest_answered_iff String _ _ _ hreach ⟨rfl, rfl, rfl⟩ ⟨["a"], []⟩ rfl⟩

/-- A request repeated before the first one has been answered is not: the first answer clears
`lastMessages`. -/
theorem newest_not_answered :
    ∃ s : State String,
      (machine fun bot (_ : List String) => ⟨bot, []⟩).Reachable s ∧ s.Quiescent ∧
      s.calls.length = 2 ∧
      (s.answers.countP fun answer => answer.block.request.call == s.calls.length - 1) = 0 :=
  ⟨_, ⟨[.handleMessages ["a"], .handleMessages ["a"], .start [] fun _ => none, .finish,
      .runBlock, .start [] fun _ => none, .finish, .runBlock], rfl⟩, ⟨rfl, rfl, rfl⟩, rfl, rfl⟩

end AiGramLib.Messages
