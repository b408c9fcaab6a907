import AiGramLib.Library.Trail
import AiGramLib.Store.Chain

/-!
# When the store-building walk ends

The loop of `botsInStore` follows the trail of the `next` links of the loaded bots
(`walk_of_trail`, `trail_of_walk`). It has no set of visited bots. `walk_ends` decides when it
needs none: starting at a bot that no other one links to, it ends unless two of the bots on its
way have the same `next`.
-/

namespace AiGramLib

open Relation StateTransition Trails

/-- The bots that the loop over the URLs keeps. -/
def loadedBots (loads : List (Option ChatBot)) : List ChatBot :=
  loads.filterMap fun load => load.filter fun bot => !bot.isTarget

/-- What the loop over the URLs knows of these bots. -/
structure Describes (links : LoadedLinks) (bots : List ChatBot) : Prop where
  found : ∀ {name bot}, links.tempBots.lookup name = some bot → bot ∈ bots ∧ bot.name = name
  temp : ∀ bot ∈ bots, bot.name ∈ links.tempBots
  linked : ∀ name, name ∈ links.linkedNames ↔ ∃ bot ∈ bots, bot.nextBotId = some name

variable {links : LoadedLinks} {bots : List ChatBot} {loads : List (Option ChatBot)}

theorem Describes.keep (h : Describes links bots) {bot : ChatBot} (htarget : bot.isTarget = false) :
    Describes (links.add (some bot)) (bots ++ [bot]) where
  found {name other} hother := by
    simp only [LoadedLinks.add, htarget, Bool.false_eq_true, if_false] at hother
    by_cases hname : name = bot.name
    · rw [hname, AList.lookup_insert] at hother
      cases hother
      exact ⟨by simp, hname.symm⟩
    · rw [AList.lookup_insert_ne hname] at hother
      exact ⟨List.mem_append_left _ (h.found hother).1, (h.found hother).2⟩
  temp other hother := by
    simp only [LoadedLinks.add, htarget, Bool.false_eq_true, if_false, AList.mem_insert]
    rcases List.mem_append.mp hother with hold | hnew
    · exact .inr (h.temp other hold)
    · exact .inl (List.mem_singleton.mp hnew ▸ rfl)
  linked name := by
    simp only [LoadedLinks.add, htarget, Bool.false_eq_true, if_false, List.mem_append,
      List.mem_singleton, or_and_right, exists_or, exists_eq_left]
    cases hnext : bot.nextBotId with
    | none => simp [h.linked]
    | some nextName => simp [h.linked, or_comm, eq_comm]

theorem loaded_bots_concat (loads : List (Option ChatBot)) (load : Option ChatBot) :
    loadedBots (loads ++ [load]) =
      loadedBots loads ++ (load.filter fun bot => !bot.isTarget).toList := by
  simp only [loadedBots, List.filterMap_append]
  cases hkept : load.filter (fun bot => !bot.isTarget) <;> simp [hkept]

/-- After the loop over the URLs. -/
theorem describes_load_links (loads : List (Option ChatBot)) :
    Describes (loadLinks loads) (loadedBots loads) := by
  induction loads using List.reverseRecOn with
  | nil => exact ⟨by simp [loadLinks], by simp [loadedBots], by simp [loadLinks, loadedBots]⟩
  | append_singleton loads load ih =>
      have hlinks : loadLinks (loads ++ [load]) = (loadLinks loads).add load := by
        rw [loadLinks, List.foldl_append]
        rfl
      rw [hlinks, loaded_bots_concat]
      cases load with
      | none => simpa [LoadedLinks.add] using ih
      | some bot =>
          by_cases htarget : bot.isTarget = true
          · simpa [LoadedLinks.add, Option.filter, htarget] using ih
          · have htarget := eq_false_of_ne_true htarget
            simpa [Option.filter, htarget] using ih.keep htarget

/-- The `next` of the bot with a name, if there is a bot for it. -/
def link (lookup : ChatBotId → Option ChatBot) (name : ChatBotId) : Option ChatBotId := do
  let bot ← lookup name
  bot.nextBotId.filter fun nextName => (lookup nextName).isSome

theorem link_eq_some {lookup : ChatBotId → Option ChatBot} {name following : ChatBotId} :
    link lookup name = some following ↔
      ∃ bot, lookup name = some bot ∧ bot.nextBotId = some following ∧
        (lookup following).isSome := by
  simp [link, Option.bind_eq_some_iff, Option.filter_eq_some_iff]

/-- The bots that the loop appends on its way through these names. -/
def numbered (lookup : ChatBotId → Option ChatBot) : Int → List ChatBotId → List ChatBot
  | _, [] => []
  | index, name :: names =>
      match lookup name with
      | some bot => { bot with index } :: numbered lookup (index + 1) names
      | none => []

variable {tempBots : AList fun _ : ChatBotId => ChatBot}

theorem walk_some {name : ChatBotId} {bot : ChatBot} (hbot : tempBots.lookup name = some bot)
    (fuel : Nat) (index : Int) (result : List ChatBot) :
    walk tempBots (fuel + 1) (some name) index result =
      walk tempBots fuel bot.nextBotId (index + 1) (result ++ [{ bot with index }]) := by
  simp [walk, hbot]

/-- The loop ends at a name for which there is no bot. -/
theorem walk_stop {name : Option ChatBotId}
    (hname : ∀ own, name = some own → tempBots.lookup own = none) (fuel : Nat) (index : Int)
    (result : List ChatBot) : walk tempBots (fuel + 1) name index result = some result := by
  cases name with
  | none => rfl
  | some own => simp [walk, hname own rfl]

theorem next_missing {name : ChatBotId} {bot : ChatBot} (hbot : tempBots.lookup name = some bot)
    (hlink : link tempBots.lookup name = none) (own : ChatBotId) (hown : bot.nextBotId = some own) :
    tempBots.lookup own = none := by
  by_contra hfound
  have hsome : (tempBots.lookup own).isSome := Option.isSome_iff_ne_none.mpr hfound
  cases hlink.symm.trans (link_eq_some.mpr ⟨bot, hbot, hown, hsome⟩)

/-- Along a trail of the links the loop ends with the bots of the trail. -/
theorem walk_of_trail {start : ChatBotId} {names : List ChatBotId}
    (h : Trail (link tempBots.lookup) start names) (hstart : start ∈ tempBots) {fuel : Nat}
    (hfuel : names.length < fuel) (index : Int) (result : List ChatBot) :
    walk tempBots fuel (some start) index result =
      some (result ++ numbered tempBots.lookup index names) := by
  induction h generalizing fuel index result with
  | last hnone =>
      obtain ⟨bot, hbot⟩ := Option.isSome_iff_exists.mp (AList.lookup_isSome.mpr hstart)
      obtain ⟨fuel, rfl⟩ := Nat.exists_eq_add_of_lt hfuel
      rw [List.length_singleton, Nat.add_comm 1, walk_some hbot,
        walk_stop (next_missing hbot hnone)]
      simp [numbered, hbot]
  | step hnext hrest ih =>
      obtain ⟨bot, hbot, hown, hsome⟩ := link_eq_some.mp hnext
      obtain ⟨fuel, rfl⟩ := Nat.exists_eq_add_of_lt (Nat.zero_lt_of_lt hfuel)
      rw [Nat.zero_add, walk_some hbot, hown,
        ih (AList.lookup_isSome.mp hsome) (Nat.lt_of_succ_lt_succ (by simpa using hfuel))]
      simp [numbered, hbot]

/-- If the loop ends, it has followed a trail. -/
theorem trail_of_walk {start : ChatBotId} {fuel : Nat} {index : Int} {result final : List ChatBot}
    (h : walk tempBots fuel (some start) index result = some final) (hstart : start ∈ tempBots) :
    ∃ names, Trail (link tempBots.lookup) start names := by
  induction fuel generalizing start index result with
  | zero => cases h
  | succ fuel ih =>
      obtain ⟨bot, hbot⟩ := Option.isSome_iff_exists.mp (AList.lookup_isSome.mpr hstart)
      rw [walk_some hbot] at h
      cases hlink : link tempBots.lookup start with
      | none => exact ⟨_, .last hlink⟩
      | some following =>
          obtain ⟨_, hsame, hown, hsome⟩ := link_eq_some.mp hlink
          cases hbot.symm.trans hsame
          rw [hown] at h
          obtain ⟨names, hnames⟩ := ih h (AList.lookup_isSome.mp hsome)
          exact ⟨_, .step hlink hnames⟩

/-- The link that the loop follows after these results of `ChatBot(url:)`. -/
abbrev loadedLink (loads : List (Option ChatBot)) : ChatBotId → Option ChatBotId :=
  link (loadLinks loads).tempBots.lookup

/-- The loop builds this list, and makes no more tests than it needs for it. -/
def Ends (loads : List (Option ChatBot)) (name : Option ChatBotId) (result : List ChatBot) : Prop :=
  ∀ fuel, result.length < fuel → storeBots loads name fuel = some result

variable {name : Option ChatBotId} {start : ChatBotId} {names : List ChatBotId}

/-- The links lead to loaded bots only. -/
theorem reached_loaded (hstart : start ∈ (loadLinks loads).tempBots) {passed : ChatBotId}
    (h : Reaches (loadedLink loads) start passed) : passed ∈ (loadLinks loads).tempBots := by
  rcases ReflTransGen.cases_tail h with hsame | ⟨_, _, hnext⟩
  · exact hsame ▸ hstart
  · obtain ⟨_, _, _, hsome⟩ := link_eq_some.mp hnext
    exact AList.lookup_isSome.mp hsome

theorem trail_found (h : Trail (loadedLink loads) start names)
    (hstart : start ∈ (loadLinks loads).tempBots) :
    ∀ name ∈ names, ∃ bot, (loadLinks loads).tempBots.lookup name = some bot ∧
      bot ∈ loadedBots loads ∧ bot.name = name := by
  intro name hname
  have hmem := reached_loaded hstart (h.mem_iff.mp hname)
  obtain ⟨bot, hbot⟩ := Option.isSome_iff_exists.mp (AList.lookup_isSome.mpr hmem)
  exact ⟨bot, hbot, (describes_load_links loads).found hbot⟩

theorem numbered_names {lookup : ChatBotId → Option ChatBot} (index : Int)
    (h : ∀ name ∈ names, ∃ bot, lookup name = some bot ∧ bot.name = name) :
    (numbered lookup index names).map ChatBot.name = names := by
  induction names generalizing index with
  | nil => rfl
  | cons name names ih =>
      obtain ⟨⟨bot, hbot, hname⟩, hrest⟩ := List.forall_mem_cons.mp h
      simp only [numbered, hbot, List.map_cons, ih (index + 1) hrest]
      rw [← hname]
      rfl

theorem trail_names (h : Trail (loadedLink loads) start names)
    (hstart : start ∈ (loadLinks loads).tempBots) :
    (numbered (loadLinks loads).tempBots.lookup 1 names).map ChatBot.name = names := by
  refine numbered_names 1 fun name hname => ?_
  obtain ⟨bot, hbot, _, hown⟩ := trail_found h hstart name hname
  exact ⟨bot, hbot, hown⟩

/-- What `Set.first` may choose is loaded, and no loaded bot links to it. -/
theorem first_spec (hfirst : isFirst (loadLinks loads).heads (some start) = true) :
    start ∈ (loadLinks loads).tempBots ∧
      ∀ bot ∈ loadedBots loads, bot.nextBotId ≠ some start := by
  obtain ⟨hmem, hunlinked⟩ := Finset.mem_sdiff.mp (of_decide_eq_true hfirst)
  refine ⟨by simpa [AList.mem_keys] using hmem, fun bot hbot hnext => hunlinked ?_⟩
  exact ((describes_load_links loads).linked start).mpr ⟨bot, hbot, hnext⟩

theorem link_ne_first (hfirst : isFirst (loadLinks loads).heads (some start) = true)
    (passed : ChatBotId) : loadedLink loads passed ≠ some start := by
  intro hnext
  obtain ⟨bot, hbot, hown, _⟩ := link_eq_some.mp hnext
  exact (first_spec hfirst).2 bot ((describes_load_links loads).found hbot).1 hown

/-- Without a head to start at the list is empty. -/
theorem ends_of_none (hfirst : isFirst (loadLinks loads).heads none = true) :
    Ends loads none [] := by
  intro fuel hfuel
  obtain ⟨fuel, rfl⟩ := Nat.exists_eq_add_of_lt hfuel
  rw [storeBots, if_pos hfirst]
  rfl

/-- The loop ends with the bots of a trail. -/
theorem ends_of_trail (hfirst : isFirst (loadLinks loads).heads (some start) = true)
    (h : Trail (loadedLink loads) start names) :
    Ends loads (some start) (numbered (loadLinks loads).tempBots.lookup 1 names) := by
  obtain ⟨hstart, _⟩ := first_spec hfirst
  intro fuel hfuel
  rw [← List.length_map (f := ChatBot.name), trail_names h hstart] at hfuel
  rw [storeBots, if_pos hfirst, walk_of_trail h hstart hfuel]
  rfl

theorem trail_of_ends {result : List ChatBot}
    (hfirst : isFirst (loadLinks loads).heads (some start) = true)
    (h : Ends loads (some start) result) : ∃ names, Trail (loadedLink loads) start names := by
  have hwalk := h (result.length + 1) (Nat.lt_succ_self _)
  rw [storeBots, if_pos hfirst] at hwalk
  exact trail_of_walk hwalk (first_spec hfirst).1

/-- The loop ends with no bot twice in the list, if and only if no two of the bots that the links
lead to from its start have the same loaded `next`. -/
theorem walk_ends (hfirst : isFirst (loadLinks loads).heads name = true) :
    (∃ result, Ends loads name result ∧ (result.map ChatBot.name).Nodup) ↔
      ∀ start first second following, name = some start →
        Reaches (loadedLink loads) start first → Reaches (loadedLink loads) start second →
        loadedLink loads first = some following → loadedLink loads second = some following →
        first = second := by
  cases name with
  | none =>
      refine ⟨fun _ start _ _ _ hstart => ?_, fun _ => ⟨[], ends_of_none hfirst, .nil⟩⟩
      cases hstart
  | some start =>
      constructor
      · rintro ⟨result, hends, _⟩ _ first second following ⟨⟩ hfirst' hsecond
        obtain ⟨names, htrail⟩ := trail_of_ends hfirst hends
        exact htrail.next_injective (htrail.mem_iff.mpr hfirst') (htrail.mem_iff.mpr hsecond)
      · intro hshared
        obtain ⟨hstart, _⟩ := first_spec hfirst
        obtain ⟨names, htrail⟩ := exists_trail
          (fun passed hpassed => List.mem_toFinset.mpr (reached_loaded hstart hpassed))
          (fun passed hpassed => not_cyclic_of_first
            (fun first second following => hshared start first second following rfl)
            (fun passed _ => link_ne_first hfirst passed) hpassed)
        refine ⟨_, ends_of_trail hfirst htrail, ?_⟩
        rw [trail_names htrail hstart]
        exact htrail.nodup

/-- The bot of this name with this `next`. -/
def ChatBot.linking (name : ChatBotId) (next : Option ChatBotId) : ChatBot :=
  { ChatBot.named name with info := { (ChatBot.named name).info with next } }

/-- A bundle in which only one bot has a loaded `next`. -/
theorem walk_ends_run :
    ∃ result, Ends [some (.linking "b" (some "c")), none, some (.linking "a" (some "b"))] (some "a")
      result ∧ (result.map ChatBot.name).Nodup := by
  refine (walk_ends (by decide)).mpr fun _ first second following _ _ _ hfirst hsecond => ?_
  have honly : ∀ own, loadedLink [some (.linking "b" (some "c")), none,
      some (.linking "a" (some "b"))] own = some following → own = "a" := by
    intro own hown
    obtain ⟨bot, hbot, hnext, hsome⟩ := link_eq_some.mp hown
    obtain ⟨hmem, rfl⟩ := (describes_load_links _).found hbot
    have hloaded : loadedBots [some (.linking "b" (some "c")), none,
        some (.linking "a" (some "b"))] = [.linking "b" (some "c"), .linking "a" (some "b")] := rfl
    rw [hloaded, List.mem_pair] at hmem
    rcases hmem with rfl | rfl
    · cases hnext
      exact absurd hsome (by decide)
    · rfl
  rw [honly first hfirst, honly second hsecond]

/-- The `next` links lead from the only head into a cycle. -/
theorem walk_does_not_end :
    ∃ loads start, isFirst (loadLinks loads).heads (some start) = true ∧
      ∀ fuel, storeBots loads (some start) fuel = none := by
  let loads : List (Option ChatBot) :=
    [some (.linking "a" (some "b")), some (.linking "b" (some "c")), some (.linking "c" (some "b"))]
  have hfirst : isFirst (loadLinks loads).heads (some "a") = true := by decide
  refine ⟨loads, "a", hfirst, fun fuel => ?_⟩
  refine Option.eq_none_iff_forall_ne_some.mpr fun result hends => ?_
  rw [storeBots, if_pos hfirst] at hends
  obtain ⟨names, htrail⟩ := trail_of_walk hends (by decide)
  have hab : loadedLink loads "a" = some "b" := by decide
  have hbc : loadedLink loads "b" = some "c" := by decide
  have hcb : loadedLink loads "c" = some "b" := by decide
  have hac : Reaches (loadedLink loads) "a" "c" := .head hab (.single hbc)
  have hc : "c" ∈ names := htrail.mem_iff.mpr hac
  exact absurd (htrail.next_injective (htrail.mem_iff.mpr .refl) hc hab hcb) (by decide)

end AiGramLib
