import AiGramLib.Store.Coverage
import AiGramLib.Store.Loader

/-!
# The order of the store

`ChatBot` compares names with `==` and indices with `<`, so on bots at large the two do not fit
together. On the list that the load block builds they do: its names are distinct and its indices
go up. There is one such list in a run, whatever else is called and however the requests end,
and every completion is given that one (`answers_sorted`); sorting its bots in any order gives
it back.
-/

namespace AiGramLib

open Trails

/-- `bots.sorted()`, which is stable. -/
def sorted (bots : List ChatBot) : List ChatBot :=
  bots.mergeSort fun bot other => !decide (other < bot)

/-- `==` and `<` go together on these bots: of each two, they are equal or one is smaller, and
only one of the three holds. -/
def Comparable (bots : List ChatBot) : Prop :=
  ∀ bot ∈ bots, ∀ other ∈ bots,
    ((bot == other) = true ↔ ¬ bot < other ∧ ¬ other < bot)

theorem sorted_perm (bots : List ChatBot) : (sorted bots).Perm bots :=
  List.mergeSort_perm _ _

theorem sorted_pairwise (bots : List ChatBot) :
    (sorted bots).Pairwise fun bot other => ¬ other < bot := by
  have hordered := @List.pairwise_mergeSort ChatBot (fun bot other => !decide (other < bot))
    (fun first second third => by
      simp only [Bool.not_eq_true', decide_eq_false_iff_not, ChatBot.lt_iff_index]
      omega)
    (fun first second => by
      simp only [Bool.or_eq_true, Bool.not_eq_true', decide_eq_false_iff_not, ChatBot.lt_iff_index]
      omega) bots
  simpa [sorted] using hordered

variable {loads : List (Option ChatBot)} {name : Option ChatBotId} {result : List ChatBot}

/-- More loop tests than needed make no difference. -/
theorem walk_mono {tempBots : AList fun _ : ChatBotId => ChatBot} {fuel : Nat} {index : Int}
    {front : List ChatBot} (h : walk tempBots fuel name index front = some result)
    (more : Nat) : walk tempBots (fuel + more) name index front = some result := by
  induction fuel generalizing name index front with
  | zero => cases h
  | succ fuel ih =>
      rw [Nat.succ_add]
      cases name with
      | none => exact h
      | some currentName =>
          cases hbot : tempBots.lookup currentName with
          | none =>
              simp only [walk, hbot] at h ⊢
              exact h
          | some bot =>
              rw [walk_some hbot] at h ⊢
              exact ih h

/-- A list that the load block builds has the loaded bots of a trail. -/
theorem store_trail {fuel : Nat} (h : storeBots loads name fuel = some result) :
    result = [] ∨ ∃ start names, isFirst (loadLinks loads).heads (some start) = true ∧
      Trail (loadedLink loads) start names ∧
      result = numbered (loadLinks loads).tempBots.lookup 1 names := by
  unfold storeBots at h
  split at h
  · rename_i hfirst
    cases name with
    | none =>
        refine .inl ?_
        cases fuel with
        | zero => cases h
        | succ fuel => exact (Option.some.inj h).symm
    | some start =>
        obtain ⟨names, htrail⟩ := trail_of_walk h (first_spec hfirst).1
        refine .inr ⟨start, names, hfirst, htrail, ?_⟩
        -- with tests enough for the trail, the loop builds the same list
        have hends := ends_of_trail hfirst htrail
          (fuel + ((numbered (loadLinks loads).tempBots.lookup 1 names).length + 1)) (by omega)
        rw [storeBots, if_pos hfirst, walk_mono h] at hends
        exact Option.some.inj hends
  · cases h

theorem store_nodup {fuel : Nat} (h : storeBots loads name fuel = some result) :
    (result.map ChatBot.name).Nodup := by
  rcases store_trail h with rfl | ⟨start, names, hfirst, htrail, rfl⟩
  · exact List.nodup_nil
  · rw [trail_names htrail (first_spec hfirst).1]
    exact htrail.nodup

/-- The bot at each place of the list is a loaded one with the number of its place. -/
theorem store_get {fuel : Nat} (h : storeBots loads name fuel = some result) {k : Nat}
    {bot : ChatBot} (hbot : result[k]? = some bot) :
    ∃ loaded ∈ loadedBots loads, bot = { loaded with index := k + 1 } := by
  rcases store_trail h with rfl | ⟨start, names, hfirst, htrail, rfl⟩
  · cases hbot
  · obtain ⟨own, loaded, -, hloaded, rfl⟩ := numbered_get hbot
    exact ⟨loaded, ((describes_load_links loads).found hloaded).1, by rw [Int.add_comm]⟩

theorem store_increasing {fuel : Nat} (h : storeBots loads name fuel = some result) :
    result.Pairwise (· < ·) := by
  refine List.pairwise_iff_getElem.mpr fun i j hi hj hij => ?_
  obtain ⟨loaded, -, hloaded⟩ := store_get h (List.getElem?_eq_getElem hi)
  obtain ⟨other, -, hother⟩ := store_get h (List.getElem?_eq_getElem hj)
  rw [ChatBot.lt_iff_index, hloaded, hother]
  show (i + 1 : Int) < j + 1
  omega

/-- On a list with distinct names that goes up, `==` and `<` go together. -/
theorem comparable_of_increasing (hnames : (result.map ChatBot.name).Nodup)
    (hindex : result.Pairwise (· < ·)) : Comparable result := by
  intro bot hbot other hother
  rw [ChatBot.beq_iff_name]
  constructor
  · intro hname
    rw [List.inj_on_of_nodup_map hnames hbot hother hname]
    exact ⟨Int.lt_irrefl _, Int.lt_irrefl _⟩
  · rintro ⟨hless, hgreater⟩
    obtain ⟨i, hi, rfl⟩ := List.mem_iff_getElem.mp hbot
    obtain ⟨j, hj, rfl⟩ := List.mem_iff_getElem.mp hother
    have hordered := List.pairwise_iff_getElem.mp hindex
    rcases Nat.lt_trichotomy i j with hij | rfl | hij
    · exact absurd (hordered i j hi hj hij) hless
    · rfl
    · exact absurd (hordered j i hj hi hij) hgreater

/-- Sorting gives a list that goes up back from any order. -/
theorem sorted_of_perm (hindex : result.Pairwise (· < ·)) {bots : List ChatBot}
    (hperm : bots.Perm result) : sorted bots = result := by
  have hordered : result.Pairwise fun bot other => ¬ other < bot :=
    hindex.imp fun hless hgreater => Int.lt_asymm hless hgreater
  refine List.Perm.eq_of_pairwise (fun bot other hbot hother hless hgreater => ?_)
    (sorted_pairwise bots) hordered ((sorted_perm bots).trans hperm)
  obtain ⟨i, hi, rfl⟩ := List.mem_iff_getElem.mp (((sorted_perm bots).trans hperm).mem_iff.mp hbot)
  obtain ⟨j, hj, rfl⟩ := List.mem_iff_getElem.mp hother
  have hpairs := List.pairwise_iff_getElem.mp hindex
  rcases Nat.lt_trichotomy i j with hij | rfl | hij
  · exact absurd (hpairs i j hi hj hij) hgreater
  · rfl
  · exact absurd (hpairs j i hj hi hij) hless

namespace Loader

open Transition

/-- The load block of a run has built this list, or none yet; and what is on its way to the
completions or has been given to them is that list. -/
structure Carries (bundle : List (Option ChatBot)) (s : State) (built : Option (List ChatBot)) :
    Prop where
  unstarted : s.storeBotsLoadingStarted = false → s.loadBlocks = 0 ∧ built = none
  load : s.loadBlocks ≤ 1 ∧ (0 < s.loadBlocks → built = none)
  made : ∀ result, built = some result → ∃ name fuel, storeBots bundle name fuel = some result
  slot : ∀ result, s.productsCompletion = some (.loadBlock result) → built = some result
  blocks : ∀ result ∈ s.mainBlocks, built = some result
  stored : if s.loadedBotsFlag then built = some s.loadedBotsInStore else s.loadedBotsInStore = []
  draining : ∀ call, .block call ∈ s.current → s.loadedBotsFlag = true
  answers : ∀ answer ∈ s.answers, ∃ result, built = some result ∧ answer.result = .success result

variable {bundle : List (Option ChatBot)} {s t : State} {built : Option (List ChatBot)}

theorem Carries.initial : Carries bundle .initial none where
  unstarted _ := ⟨rfl, rfl⟩
  load := ⟨Nat.zero_le 1, fun _ => rfl⟩
  made result hmade := by cases hmade
  slot result hslot := by cases hslot
  blocks := by simp [State.initial]
  stored := rfl
  draining := by simp [State.initial]
  answers := by simp [State.initial]

/-- An answer given from the stored list, once the flag is set. -/
theorem Carries.answer (h : Carries bundle s built) (hflag : s.loadedBotsFlag = true) (call : Nat) :
    ∀ answer ∈ s.answers ++ [⟨call, .success s.loadedBotsInStore⟩],
      ∃ result, built = some result ∧ answer.result = .success result := by
  have hstored : built = some s.loadedBotsInStore := by simpa [hflag] using h.stored
  intro answer hanswer
  rcases List.mem_append.mp hanswer with hold | hnew
  · exact h.answers answer hold
  · rw [List.mem_singleton.mp hnew]
    exact ⟨_, hstored, rfl⟩

theorem Carries.step (h : Carries bundle s built) {action : Action}
    (hnext : (machine bundle).next s action = some t) :
    ∃ following, Carries bundle t following := by
  cases action with
  | botsInStore =>
      cases hnext
      refine ⟨built, ?_⟩
      unfold botsInStore
      split
      · rename_i hflag
        exact { h with answers := h.answer hflag s.calls }
      · split
        · exact { h with }
        · rename_i hunstarted
          obtain ⟨hzero, hnone⟩ := h.unstarted (by simpa using hunstarted)
          exact { h with
            unstarted := fun hstarted => by cases hstarted
            load := ⟨by simp [hzero], fun _ => hnone⟩ }
  | loadProducts bots =>
      cases hnext
      exact ⟨built, { h with slot := fun result hslot => by cases hslot }⟩
  | load name fuel =>
      simp only [machine, Loader.load] at hnext
      split at hnext
      · rename_i hload
        obtain ⟨result, hresult, hnext⟩ := Option.bind_eq_some_iff.mp hnext
        cases hnext
        have hnone := h.load.2 hload
        have hone := h.load.1
        -- nothing was on its way before the only load block has run
        subst hnone
        refine ⟨some result, ?_, ?_, ?_, ?_, ?_, ?_, h.draining, ?_⟩
        · intro hunstarted
          have := (h.unstarted hunstarted).1
          omega
        · refine ⟨?_, fun hpos => ?_⟩ <;> simp only [loadProducts] at * <;> omega
        · rintro _ ⟨⟩
          exact ⟨name, fuel, hresult⟩
        · rintro _ ⟨⟩
          rfl
        · intro other hother
          cases h.blocks other hother
        · have hstored := h.stored
          split at hstored
          · cases hstored
          · rename_i hflag
            show if s.loadedBotsFlag = true then _ else _
            rw [if_neg hflag]
            exact hstored
        · intro answer hanswer
          obtain ⟨other, hother, -⟩ := h.answers answer hanswer
          cases hother
      · cases hnext
  | didReceive i products =>
      obtain ⟨request, -, hnext⟩ := Option.bind_eq_some_iff.mp hnext
      refine ⟨built, ?_⟩
      split at hnext
      · split at hnext <;> cases hnext
        · rename_i result hslot
          refine { h with slot := fun result hslot => (by cases hslot), blocks := ?_ }
          intro other hother
          rcases List.mem_append.mp hother with hold | hnew
          · exact h.blocks other hold
          · rw [List.mem_singleton.mp hnew]
            exact h.slot result hslot
        · exact { h with draining := by simp }
        · exact { h with }
      · cases hnext
  | requestFails i =>
      obtain ⟨request, -, hnext⟩ := Option.bind_eq_some_iff.mp hnext
      cases hnext
      exact ⟨built, { h with }⟩
  | runBlock =>
      refine ⟨built, ?_⟩
      simp only [machine, runBlock] at hnext
      split at hnext
      · rename_i result rest hcurrent hmain
        cases hnext
        exact { h with
          blocks := fun other hother => h.blocks other (by simp [hmain, hother])
          stored := h.blocks result (by simp [hmain])
          draining := fun _ _ => rfl }
      · cases hnext
  | «continue» =>
      refine ⟨built, ?_⟩
      simp only [machine, continueStep] at hnext
      split at hnext
      · cases hnext
      · rename_i call rest hcurrent
        cases hnext
        have hflag := h.draining call (by simp [hcurrent])
        exact { h with
          draining := fun _ _ => hflag
          answers := h.answer hflag call }
      · rename_i rest hcurrent
        cases hnext
        exact { h with draining := fun call hcall => h.draining call (by simp [hcurrent, hcall]) }
      · rename_i rest hcurrent
        cases hnext
        exact { h with
          slot := fun result hslot => by cases hslot
          draining := fun call hcall => h.draining call (by simp [hcurrent, hcall]) }

theorem carries_of_reachable (h : (machine bundle).Reachable s) :
    ∃ built, Carries bundle s built :=
  h.invariant (P := fun s => ∃ built, Carries bundle s built) ⟨none, .initial⟩
    fun _ _ _ ⟨_, hcarries⟩ hnext => hcarries.step hnext

/-- The bots that the rest of the library reads are loaded ones, with a number. -/
theorem loaded_of_stored (h : (machine bundle).Reachable s) {bot : ChatBot}
    (hbot : bot ∈ s.loadedBotsInStore) :
    ∃ loaded ∈ loadedBots bundle, ∃ index, bot = { loaded with index } := by
  obtain ⟨built, hcarries⟩ := carries_of_reachable h
  have hstored := hcarries.stored
  split at hstored
  · obtain ⟨name, fuel, hresult⟩ := hcarries.made _ hstored
    obtain ⟨k, hk⟩ := List.mem_iff_getElem?.mp hbot
    obtain ⟨loaded, hloaded, heq⟩ := store_get hresult hk
    exact ⟨loaded, hloaded, _, heq⟩
  · rw [hstored] at hbot
    cases hbot

/-- In every run all completions are given one list, which the load block has built; on its bots
`==` and `<` go together, and sorting them in any order gives the list back. -/
theorem answers_sorted (h : (machine bundle).Reachable s) {answer : Answer}
    (hanswer : answer ∈ s.answers) :
    ∃ result, (∃ name fuel, storeBots bundle name fuel = some result) ∧
      (∀ other ∈ s.answers, other.result = .success result) ∧ Comparable result ∧
      ∀ bots : List ChatBot, bots.Perm result → sorted bots = result := by
  obtain ⟨built, hcarries⟩ := carries_of_reachable h
  obtain ⟨result, hbuilt, -⟩ := hcarries.answers answer hanswer
  obtain ⟨name, fuel, hresult⟩ := hcarries.made result hbuilt
  have hindex := store_increasing hresult
  refine ⟨result, ⟨name, fuel, hresult⟩, fun other hother => ?_,
    comparable_of_increasing (store_nodup hresult) hindex, fun bots => sorted_of_perm hindex⟩
  obtain ⟨same, hsame, hvalue⟩ := hcarries.answers other hother
  cases hbuilt.symm.trans hsame
  exact hvalue

/-- A list of two is given to two callers, while other code asks for products. -/
theorem answers_sorted_run :
    ∃ s : State,
      (machine [some (.linking "b" none), some (.linking "a" (some "b"))]).Reachable s ∧
      s.answers.length = 2 ∧
      ∃ result, result.map ChatBot.name = ["a", "b"] ∧
        (∀ answer ∈ s.answers, answer.result = .success result) ∧
        sorted result.reverse = result := by
  obtain ⟨s, hreach, hlength, hnames, hstored⟩ :=
    (machine [some (.linking "b" none), some (.linking "a" (some "b"))]).exists_reachable
      [.botsInStore, .load (some "a") 3, .didReceive 0 [], .loadProducts [], .botsInStore,
        .runBlock, .continue, .continue]
      (fun s => s.answers.length = 2 ∧ s.loadedBotsInStore.map ChatBot.name = ["a", "b"] ∧
        ∀ answer ∈ s.answers, answer.result = .success s.loadedBotsInStore) (by decide)
  obtain ⟨answer, hanswer⟩ := List.exists_mem_of_length_pos (l := s.answers) (by omega)
  obtain ⟨result, -, hvalues, -, hsorted⟩ := answers_sorted hreach hanswer
  cases (hvalues answer hanswer).symm.trans (hstored answer hanswer)
  exact ⟨s, hreach, hlength, _, hnames, hvalues, hsorted _ (List.reverse_perm _)⟩

end Loader

end AiGramLib
