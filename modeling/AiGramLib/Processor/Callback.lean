import AiGramLib.Entities

/-!
# What the callback of `InterpreterOperation` does with an output

The callback takes the output of the interpreter apart with casts that fall back to empty arrays,
and then reads the first element of the one and elements of `bot.responses` at the positions of
the other. `callback_safe_iff` says for which outputs all these accesses are in range; the
condition is then signalled by the deferred block. `Score` stands for `Float32` and `threshold`
for `0.9`: nothing but the comparison of the two is used.
-/

namespace AiGramLib.InterpreterOperation

/-- A value of type `Any`, as far as the casts of the callback tell values apart. -/
inductive AnyValue (Score : Type) where
  | score (value : Score)
  | array (elements : List (AnyValue Score))
  | other

/-- What the callback is called with. -/
inductive RunResult (Score : Type) where
  /-- `outputs` is nil. -/
  | failed
  /-- `outputs.output(index: 0)` throws. -/
  | unreadable
  | output (value : AnyValue Score)

/-- An access that is out of range. It ends the app, so nothing deferred is run. -/
inductive OutOfRange where
  /-- `firstOutput[0]` -/
  | firstOutput
  /-- `self.bot.responses[i]` -/
  | responses (i : Nat)
  deriving DecidableEq, Repr

/-- What the callback does, but for its computations. -/
inductive Event where
  | completion (responses : List BotResponse)
  | lock
  | signal
  | unlock
  deriving DecidableEq, Repr

variable {Score : Type}

/-- `as? Float32` -/
def AnyValue.asScore : AnyValue Score → Option Score
  | .score value => some value
  | _ => none

/-- `as? [Any]` -/
def AnyValue.asArray : AnyValue Score → Option (List (AnyValue Score))
  | .array elements => some elements
  | _ => none

/-- `as? [Float32]` -/
def AnyValue.asScores (value : AnyValue Score) : Option (List Score) := do
  let elements ← value.asArray
  elements.mapM AnyValue.asScore

/-- `constructResponses(with:)` -/
def constructResponses (response : BotResponse) : List BotResponse :=
  response.response.map fun string => ⟨[string], response.tag⟩

variable [LE Score] [DecidableLE Score]

/-- The loop over `outputs`, from position `i` on, with the responses collected so far. -/
def collectResponses (threshold : Score) (bot : ChatBot) :
    Nat → List Score → List BotResponse → Except OutOfRange (List BotResponse)
  | _, [], responses => pure responses
  | i, output :: rest, responses =>
      if threshold ≤ output then
        match bot.responses[i]? with
        | some response =>
            collectResponses threshold bot (i + 1) rest (responses ++ constructResponses response)
        | none => throw (.responses i)
      else collectResponses threshold bot (i + 1) rest responses

/-- The callback up to its return: what it calls `completion` with, if it does. -/
def callbackBody (threshold : Score) (bot : ChatBot) (result : RunResult Score) :
    Except OutOfRange (Option (List BotResponse)) :=
  match result with
  | .failed => pure none
  | .unreadable => pure none
  | .output value =>
      -- what is not an array counts as an empty one, and its first element is read all the same
      match value.asArray.getD [] with
      | [] => throw .firstOutput
      | first :: _ => some <$> collectResponses threshold bot 0 (first.asScores.getD []) []

/-- The callback: its body, and then the block that it has deferred. -/
def callback (threshold : Score) (bot : ChatBot) (result : RunResult Score) :
    Except OutOfRange (List Event) := do
  let completed ← callbackBody threshold bot result
  pure (completed.toList.map .completion ++ [.lock, .signal, .unlock])

/-- There are responses at these positions for all scores from the threshold on. -/
def ScoresInRange (threshold : Score) (bot : ChatBot) (i : Nat) (scores : List Score) : Prop :=
  ∀ (k : Nat) score, scores[k]? = some score → threshold ≤ score → i + k < bot.responses.length

/-- The results for which the callback stays in range: there is no output to read, or it is an
array with a first element, and if this is a vector of scores, there is a response for each of
them from the threshold on. -/
def ReadsInRange (threshold : Score) (bot : ChatBot) : RunResult Score → Prop
  | .failed => True
  | .unreadable => True
  | .output value => ∃ first rest, value.asArray = some (first :: rest) ∧
      ∀ scores, first.asScores = some scores → ScoresInRange threshold bot 0 scores

variable {threshold : Score} {bot : ChatBot} {result : RunResult Score}

omit [DecidableLE Score] in
theorem scores_in_range_cons {i : Nat} {score : Score} {rest : List Score} :
    ScoresInRange threshold bot i (score :: rest) ↔
      (threshold ≤ score → i < bot.responses.length) ∧
        ScoresInRange threshold bot (i + 1) rest := by
  constructor
  · refine fun h => ⟨fun hscore => h 0 score rfl hscore, fun k other hother hscore => ?_⟩
    have hlt := h (k + 1) other hother hscore
    omega
  · rintro ⟨hfirst, hrest⟩ k other hother hscore
    cases k with
    | zero =>
        cases hother
        exact hfirst hscore
    | succ k =>
        have hlt := hrest k other hother hscore
        omega

/-- The loop ends if and only if it stays in range. -/
theorem collect_responses_ok_iff {i : Nat} {scores : List Score} {responses : List BotResponse} :
    (∃ collected, collectResponses threshold bot i scores responses = .ok collected) ↔
      ScoresInRange threshold bot i scores := by
  induction scores generalizing i responses with
  | nil =>
      refine ⟨fun _ k _ hnone => ?_, fun _ => ⟨responses, rfl⟩⟩
      cases hnone
  | cons score rest ih =>
      rw [scores_in_range_cons, collectResponses]
      by_cases hscore : threshold ≤ score
      · rw [if_pos hscore]
        cases hresponse : bot.responses[i]? with
        | some response =>
            have hlt := (List.getElem?_eq_some_iff.mp hresponse).1
            simp [ih, hlt]
        | none =>
            have hge := List.getElem?_eq_none_iff.mp hresponse
            constructor
            · rintro ⟨collected, hcollected⟩
              cases hcollected
            · rintro ⟨hlt, -⟩
              exact absurd (hlt hscore) (Nat.not_lt.mpr hge)
      · rw [if_neg hscore, ih]
        simp [hscore]

/-- The callback accesses its arrays in range and signals the condition, if and only if what it
reads is in range. -/
theorem callback_safe_iff (threshold : Score) (bot : ChatBot) (result : RunResult Score) :
    (∃ events, callback threshold bot result = .ok events ∧ .signal ∈ events) ↔
      ReadsInRange threshold bot result := by
  have hdeferred : (∃ events, callback threshold bot result = .ok events ∧ .signal ∈ events) ↔
      ∃ completed, callbackBody threshold bot result = .ok completed := by
    cases hbody : callbackBody threshold bot result with
    | error => simp [callback, hbody, bind, Except.bind]
    | ok completed => simp [callback, hbody, bind, Except.bind, pure, Except.pure]
  rw [hdeferred]
  cases result with
  | failed => exact ⟨fun _ => trivial, fun _ => ⟨none, rfl⟩⟩
  | unreadable => exact ⟨fun _ => trivial, fun _ => ⟨none, rfl⟩⟩
  | output value =>
      cases harray : value.asArray with
      | none => simp [callbackBody, ReadsInRange, harray, throw, throwThe, MonadExceptOf.throw]
      | some elements =>
          cases elements with
          | nil => simp [callbackBody, ReadsInRange, harray, throw, throwThe, MonadExceptOf.throw]
          | cons first rest =>
              have hloop : (∃ completed,
                  callbackBody threshold bot (.output value) = .ok completed) ↔
                  ScoresInRange threshold bot 0 (first.asScores.getD []) := by
                have hends := @collect_responses_ok_iff Score _ _ threshold bot 0
                  (first.asScores.getD []) []
                rw [← hends]
                cases hcollected : collectResponses threshold bot 0 (first.asScores.getD []) [] <;>
                  simp [callbackBody, harray, hcollected, Functor.map, Except.map]
              rw [hloop]
              cases hscores : first.asScores with
              | none => simp [ReadsInRange, harray, hscores, ScoresInRange]
              | some scores => simp [ReadsInRange, harray, hscores]

/-- The responses of the scores from the threshold on, in their order, one for each string. -/
def responsesOf (threshold : Score) (scores : List Score) (responses : List BotResponse) :
    List BotResponse :=
  (scores.zip responses).flatMap fun (score, response) =>
    if threshold ≤ score then response.response.map fun string => ⟨[string], response.tag⟩ else []

theorem responses_of_cons (score : Score) (scores : List Score) (response : BotResponse)
    (responses : List BotResponse) :
    responsesOf threshold (score :: scores) (response :: responses) =
      (if threshold ≤ score then constructResponses response else []) ++
        responsesOf threshold scores responses := rfl

/-- If the loop stays in range, it collects the responses of all positions. -/
theorem collect_responses_eq {i : Nat} {scores : List Score} {responses : List BotResponse}
    (h : ScoresInRange threshold bot i scores) :
    collectResponses threshold bot i scores responses =
      .ok (responses ++ responsesOf threshold scores (bot.responses.drop i)) := by
  induction scores generalizing i responses with
  | nil => simp [collectResponses, responsesOf, pure, Except.pure]
  | cons score rest ih =>
      obtain ⟨hfirst, hrest⟩ := scores_in_range_cons.mp h
      by_cases hlt : i < bot.responses.length
      · rw [collectResponses, List.drop_eq_getElem_cons hlt, List.getElem?_eq_getElem hlt,
          responses_of_cons]
        by_cases hscore : threshold ≤ score
        · rw [if_pos hscore, if_pos hscore, ← List.append_assoc]
          exact ih hrest
        · rw [if_neg hscore, if_neg hscore, List.nil_append]
          exact ih hrest
      · -- all that is left are scores below the threshold
        have hscore : ¬ threshold ≤ score := fun hscore => hlt (hfirst hscore)
        have hnone : bot.responses.drop i = [] := List.drop_eq_nil_of_le (Nat.not_lt.mp hlt)
        have hnone' : bot.responses.drop (i + 1) = [] :=
          List.drop_eq_nil_of_le (Nat.le_succ_of_le (Nat.not_lt.mp hlt))
        rw [collectResponses, if_neg hscore, ih hrest, hnone, hnone']
        simp [responsesOf]

/-- An output that is not an array, and a vector with more scores than there are responses. -/
theorem callback_not_safe :
    (¬ ∃ events, callback 9 (.named "a") (.output (.other : AnyValue Nat)) = .ok events ∧
      .signal ∈ events) ∧
    ¬ ∃ events, callback 9 (.named "a") (.output (.array [.array [.score 10]])) = .ok events ∧
      .signal ∈ events := by
  constructor
  · rintro ⟨events, hevents, -⟩
    cases hevents
  · rintro ⟨events, hevents, -⟩
    cases hevents

end AiGramLib.InterpreterOperation
