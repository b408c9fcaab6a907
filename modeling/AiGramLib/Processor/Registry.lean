import Mathlib.Data.List.Basic
import AiGramLib.Entities
import AiGramLib.Library.Machine

/-!
# The models of the bots

All calls of `process` register the model of their bot with one model manager, under the name of
the bot, and ask for an interpreter of the model with that name. The manager keeps the first
source of a name and reports that it has rejected the later ones, which nobody looks at.
`own_models_iff` says in which runs of the app every bot is answered by its own model: those in
which the bots of one name are all loaded from one place.
-/

namespace AiGramLib

/-- The address of a file in a bot directory. -/
structure FileURL where
  directory : URL
  lastPathComponent : String
  deriving DecidableEq, Repr

/-- The model of a bot, `modelURL` of `ChatBot(url:)`. -/
def ChatBot.modelURL (bot : ChatBot) : FileURL := ⟨bot.url, "converted_model.tflite"⟩

namespace Models

open Transition

structure LocalModelSource where
  modelName : String
  path : FileURL
  deriving DecidableEq, Repr

structure ModelOptions where
  cloudModelName : Option String
  localModelName : Option String
  deriving DecidableEq, Repr

/-- What the library uses of the model manager and of the interpreters, as documented: `Manager`
is the state of the manager. -/
structure ModelManager (Manager : Type) where
  /-- `modelManager()`, when the app starts. -/
  modelManager : Manager
  /-- Also returns whether the registration is successful. -/
  register : Manager → LocalModelSource → Manager × Bool
  localModelSource : Manager → String → Option LocalModelSource
  /-- The source of the local model that an interpreter with these options runs. -/
  interpreted : Manager → ModelOptions → Option LocalModelSource
  nothing_registered : ∀ name, localModelSource modelManager name = none
  /-- A name can be registered once. -/
  register_first : ∀ manager source, localModelSource manager source.modelName = none →
    localModelSource (register manager source).1 source.modelName = some source
  register_again : ∀ manager source, (localModelSource manager source.modelName).isSome = true →
    localModelSource (register manager source).1 source.modelName =
      localModelSource manager source.modelName
  register_other : ∀ manager source name, name ≠ source.modelName →
    localModelSource (register manager source).1 name = localModelSource manager name
  interpreted_local : ∀ manager name,
    interpreted manager ⟨none, some name⟩ = localModelSource manager name

/-- A run of an interpreter, by an operation of a `process` call for `bot`. -/
structure Run where
  bot : ChatBot
  source : Option LocalModelSource
  deriving DecidableEq, Repr

structure State (Manager : Type) where
  manager : Manager
  /-- The calls of `process`: their bots, with the options of their interpreters. -/
  calls : List (ChatBot × ModelOptions)
  runs : List Run

inductive Action where
  | process (bot : ChatBot)
  /-- An operation of a call runs the interpreter. -/
  | run (call : Nat)

variable {Manager : Type}

/-- The source that `initInterpreter` makes for a bot. -/
def localModelSource (bot : ChatBot) : LocalModelSource :=
  { modelName := bot.name, path := bot.modelURL }

/-- `initInterpreter()`: the manager after it, and the options of the interpreter. -/
def initInterpreter (models : ModelManager Manager) (manager : Manager) (bot : ChatBot) :
    Manager × ModelOptions :=
  let source := localModelSource bot
  -- whether the registration is successful is not looked at
  let (manager, _) := models.register manager source
  (manager, { cloudModelName := none, localModelName := some source.modelName })

/-- An app that makes calls of `process`. -/
def machine (models : ModelManager Manager) : Machine (State Manager) Action where
  start := { manager := models.modelManager, calls := [], runs := [] }
  next s
    | .process bot =>
        let (manager, options) := initInterpreter models s.manager bot
        some { s with manager, calls := s.calls ++ [(bot, options)] }
    | .run call => do
        let (bot, options) ← s.calls[call]?
        some { s with runs := s.runs ++ [⟨bot, models.interpreted s.manager options⟩] }

/-- Only runs of the interpreters that the calls so far have. -/
def onlyRuns (_ : State Manager) : Action → Bool
  | .process _ => false
  | .run _ => true

/-- Every bot has been answered by its own model. -/
def OwnModels (s : State Manager) : Prop :=
  ∀ run ∈ s.runs, run.source.map LocalModelSource.path = some run.bot.modelURL

/-- The bots of one name have one model. -/
def ModelsAgree (s : State Manager) : Prop :=
  ∀ call ∈ s.calls, ∀ other ∈ s.calls, call.1.name = other.1.name →
    call.1.modelURL = other.1.modelURL

/-- The first call for a bot with this name. -/
def State.firstCall (s : State Manager) (name : String) : Option (ChatBot × ModelOptions) :=
  s.calls.find? fun call => call.1.name == name

/-- What the manager has, and what has been run. -/
structure Registered (models : ModelManager Manager) (s : State Manager) : Prop where
  /-- Under each name, the manager has the source of the first call with that name. -/
  sources : ∀ name, models.localModelSource s.manager name =
    (s.firstCall name).map fun call => localModelSource call.1
  options : ∀ call ∈ s.calls, call.2 = ⟨none, some call.1.name⟩
  runs : ∀ run ∈ s.runs, (∃ call ∈ s.calls, call.1 = run.bot) ∧
    run.source = models.localModelSource s.manager run.bot.name

variable {models : ModelManager Manager} {s t : State Manager}

theorem registered_start (models : ModelManager Manager) :
    Registered models (machine models).start where
  sources := models.nothing_registered
  options := by simp [machine]
  runs := by simp [machine]

/-- A registration leaves the sources of all names that have one. -/
theorem register_of_isSome {manager : Manager} {name : String} (source : LocalModelSource)
    (h : (models.localModelSource manager name).isSome = true) :
    models.localModelSource (models.register manager source).1 name =
      models.localModelSource manager name := by
  by_cases hname : name = source.modelName
  · subst hname
    exact models.register_again manager source h
  · exact models.register_other manager source name hname

theorem first_call_of_mem {call : ChatBot × ModelOptions} (h : call ∈ s.calls) :
    (s.firstCall call.1.name).isSome = true :=
  List.find?_isSome.mpr ⟨call, h, beq_self_eq_true _⟩

/-- A call adds its source if it is the first with its name, and changes nothing otherwise. -/
theorem Registered.process (h : Registered models s) {bot : ChatBot}
    (hnext : (machine models).next s (.process bot) = some t) : Registered models t := by
  cases hnext
  refine ⟨fun name => ?_, fun call hcall => ?_, fun run hrun => ?_⟩
  · have hsource := h.sources name
    show models.localModelSource (models.register s.manager (localModelSource bot)).1 name = _
    simp only [State.firstCall, List.find?_append] at hsource ⊢
    cases hfirst : s.calls.find? fun call => call.1.name == name with
    | some first =>
        rw [hfirst] at hsource
        rw [register_of_isSome _ (by rw [hsource]; rfl), hsource]
        rfl
    | none =>
        rw [hfirst] at hsource
        by_cases hname : bot.name = name
        · subst hname
          rw [show bot.name = (localModelSource bot).modelName from rfl,
            models.register_first s.manager (localModelSource bot) hsource]
          simp [localModelSource]
        · rw [models.register_other _ _ _ (Ne.symm hname), hsource]
          simp [hname]
  · rcases List.mem_append.mp hcall with hold | hnew
    · exact h.options call hold
    · obtain rfl := List.mem_singleton.mp hnew
      rfl
  · obtain ⟨⟨call, hcall, hbot⟩, hsource⟩ := h.runs run hrun
    refine ⟨⟨call, List.mem_append_left _ hcall, hbot⟩, ?_⟩
    -- the source that has been run was registered, so it is not replaced
    have hfirst := first_call_of_mem hcall
    rw [hbot] at hfirst
    rw [hsource]
    refine (register_of_isSome _ ?_).symm
    rw [h.sources, Option.isSome_map]
    exact hfirst

theorem Registered.run (h : Registered models s) {call : Nat}
    (hnext : (machine models).next s (.run call) = some t) : Registered models t := by
  obtain ⟨⟨bot, options⟩, hcall, hnext⟩ := Option.bind_eq_some_iff.mp hnext
  cases hnext
  have hmem := List.mem_of_getElem? hcall
  have hoptions : options = ⟨none, some bot.name⟩ := h.options _ hmem
  refine ⟨h.sources, h.options, fun run hrun => ?_⟩
  rcases List.mem_append.mp hrun with hold | hnew
  · exact h.runs run hold
  · obtain rfl := List.mem_singleton.mp hnew
    refine ⟨⟨_, hmem, rfl⟩, ?_⟩
    rw [hoptions]
    exact models.interpreted_local s.manager bot.name

theorem registered_of_reachable (h : (machine models).Reachable s) : Registered models s := by
  refine h.invariant (registered_start models) fun state action following hstate hnext => ?_
  cases action with
  | process bot => exact hstate.process hnext
  | run call => exact hstate.run hnext

/-- If the bots of one name have one model, each has been answered by it. -/
theorem Registered.own_models (h : Registered models s) (hagree : ModelsAgree s) :
    OwnModels s := by
  intro run hrun
  obtain ⟨⟨call, hcall, hbot⟩, hsource⟩ := h.runs run hrun
  obtain ⟨first, hfirst⟩ := Option.isSome_iff_exists.mp (first_call_of_mem hcall)
  have hname : first.1.name = call.1.name := by simpa using List.find?_some hfirst
  have hsame := hagree first (List.mem_of_find?_eq_some hfirst) call hcall hname
  rw [hsource, h.sources, ← hbot, hfirst]
  simpa [localModelSource] using hsame

/-- Runs of the interpreters make no call. -/
theorem calls_of_only_runs (h : ((machine models).restrict onlyRuns).Reaches s t) :
    t.calls = s.calls := by
  refine h.restrict_induction (P := fun state => state.calls = s.calls) rfl
    fun state action following _ hstate hok hnext => ?_
  cases action with
  | process bot => cases hok
  | run call =>
      obtain ⟨_, _, hnext⟩ := Option.bind_eq_some_iff.mp hnext
      cases hnext
      exact hstate

/-- Every bot is answered by its own model, whatever the calls so far go on to run, if and only
if the bots of one name among them have one model. -/
theorem own_models_iff (h : (machine models).Reachable s) :
    (∀ t, ((machine models).restrict onlyRuns).Reaches s t → OwnModels t) ↔ ModelsAgree s := by
  constructor
  · -- run the interpreters of both calls: one source cannot be at two places
    intro hown call hcall other hother hname
    have hpath : ∀ called ∈ s.calls,
        (models.localModelSource s.manager called.1.name).map LocalModelSource.path =
          some called.1.modelURL := by
      intro called hcalled
      obtain ⟨i, hi⟩ := List.mem_iff_getElem?.mp hcalled
      let ran : State Manager :=
        { s with runs := s.runs ++ [⟨called.1, models.interpreted s.manager called.2⟩] }
      have hnext : ((machine models).restrict onlyRuns).next s (.run i) = some ran :=
        Machine.restrict_next_eq_some.mpr ⟨rfl, by simp [machine, hi, ran]⟩
      have hran := hown ran (.step hnext) _ (List.mem_append_right _ (List.mem_singleton_self _))
      rw [(registered_of_reachable h).options called hcalled, models.interpreted_local] at hran
      exact hran
    have hsource := (hpath call hcall).symm.trans (hname ▸ hpath other hother)
    exact Option.some.inj hsource
  · intro hagree t ht
    have hcalls := calls_of_only_runs ht
    refine (registered_of_reachable (h.trans ht.of_restrict)).own_models ?_
    unfold ModelsAgree
    rw [hcalls]
    exact hagree

/-- A manager that lists its sources. -/
def sourceList : ModelManager (List LocalModelSource) where
  modelManager := []
  register sources source :=
    if sources.any fun first => first.modelName == source.modelName then (sources, false)
    else (sources ++ [source], true)
  localModelSource sources name := sources.find? fun source => source.modelName == name
  interpreted sources options :=
    options.localModelName.bind fun name => sources.find? fun source => source.modelName == name
  nothing_registered _ := rfl
  register_first sources source hnone := by
    rw [List.find?_eq_none] at hnone
    rw [if_neg (by simpa using hnone), List.find?_append, List.find?_eq_none.mpr hnone]
    simp
  register_again sources source hsome := by
    rw [if_pos (by simpa using hsome)]
  register_other sources source name hname := by
    split
    · rfl
    · simp [List.find?_append, Ne.symm hname]
  interpreted_local _ _ := rfl

/-- The bots "a" and "b" of the bundle, each answered twice and by its own model. -/
theorem own_models_run :
    ∃ s, (machine sourceList).Reachable s ∧ s.runs.length = 3 ∧
      ∀ t, ((machine sourceList).restrict onlyRuns).Reaches s t → OwnModels t := by
  obtain ⟨s, hs, hlength, hagree⟩ := (machine sourceList).exists_reachable
    [.process (.named "a"), .run 0, .process (.named "b"), .run 1, .process (.named "a"), .run 2]
    (fun s => s.runs.length = 3 ∧ ∀ call ∈ s.calls, ∀ other ∈ s.calls,
      call.1.name = other.1.name → call.1.modelURL = other.1.modelURL) (by decide)
  exact ⟨s, hs, hlength, (own_models_iff hs).mpr hagree⟩

/-- The bot "a" of the bundle and its installed copy: the copy is answered by the model of the
bundle. -/
theorem not_own_models :
    ¬ ∀ s, (machine sourceList).Reachable s → OwnModels s := by
  intro hown
  let copy : ChatBot := { ChatBot.named "a" with url := (ChatBot.named "a").destinationUrl }
  obtain ⟨s, hs, run, hrun, hother⟩ := (machine sourceList).exists_reachable
    [.process (.named "a"), .process copy, .run 1]
    (fun s => ∃ run ∈ s.runs, run.source.map LocalModelSource.path ≠ some run.bot.modelURL)
    (by decide)
  exact hother (hown s hs run hrun)

end Models

end AiGramLib
