import AiGramLib.Store.Links

/-!
# What is in the store

If no two of the loaded bots have the same name or the same `next`, the loop of `botsInStore`
builds the list of the bots of one chain (`Follows`). It has all of them exactly when there is
only one bot that no other one links to and the links contain no cycle; then neither the order
of the URLs nor the choice of `Set.first` makes a difference. `store_is_chain` puts this together.
-/

namespace AiGramLib

open Relation StateTransition Trails

/-- A loaded bot links to this one. -/
def Linked (loads : List (Option ChatBot)) (bot : ChatBot) : Prop :=
  ∃ other ∈ loadedBots loads, other.nextBotId = some bot.name

/-- The list follows the links of the loaded bots from one to which none of them links, as far as
they lead, and numbers the bots from 1. -/
structure Follows (loads : List (Option ChatBot)) (result : List ChatBot) : Prop where
  distinct : (result.map ChatBot.name).Nodup
  head : ∀ bot, result.head? = some bot → ¬ Linked loads bot
  links : result.IsChain fun bot following => bot.nextBotId = some following.name
  last : ∀ bot nextName, result.getLast? = some bot → bot.nextBotId = some nextName →
    ∀ other ∈ loadedBots loads, other.name ≠ nextName
  index : ∀ (k : Nat) bot, result[k]? = some bot →
    ∃ loaded ∈ loadedBots loads, bot = { loaded with index := k + 1 }

variable {loads other : List (Option ChatBot)} {name : Option ChatBotId} {start : ChatBotId}
  {names : List ChatBotId}

theorem numbered_get {lookup : ChatBotId → Option ChatBot} {index : Int} {k : Nat} {bot : ChatBot}
    (h : (numbered lookup index names)[k]? = some bot) :
    ∃ own loaded, names[k]? = some own ∧ lookup own = some loaded ∧
      bot = { loaded with index := index + k } := by
  induction names generalizing index k with
  | nil => cases h
  | cons own names ih =>
      cases hloaded : lookup own with
      | none => simp [numbered, hloaded] at h
      | some loaded =>
          simp only [numbered, hloaded] at h
          cases k with
          | zero =>
              cases h
              exact ⟨own, loaded, rfl, hloaded, by simp⟩
          | succ k =>
              obtain ⟨own', loaded', hown', hloaded', rfl⟩ := ih h
              have hindex : index + 1 + k = index + ((k + 1 : Nat) : Int) := by omega
              exact ⟨own', loaded', hown', hloaded', by rw [hindex]⟩

/-- Where names are distinct, a name is looked up to the bot that has it. -/
theorem lookup_iff (hnames : ((loadedBots loads).map ChatBot.name).Nodup) {own : ChatBotId}
    {bot : ChatBot} :
    (loadLinks loads).tempBots.lookup own = some bot ↔ bot ∈ loadedBots loads ∧ bot.name = own := by
  refine ⟨(describes_load_links loads).found, ?_⟩
  rintro ⟨hbot, rfl⟩
  obtain ⟨found, hfound⟩ := Option.isSome_iff_exists.mp
    (AList.lookup_isSome.mpr ((describes_load_links loads).temp bot hbot))
  obtain ⟨hmem, hname⟩ := (describes_load_links loads).found hfound
  rw [hfound, List.inj_on_of_nodup_map hnames hmem hbot hname]

theorem loaded_link_iff (hnames : ((loadedBots loads).map ChatBot.name).Nodup)
    {own following : ChatBotId} :
    loadedLink loads own = some following ↔
      ∃ bot ∈ loadedBots loads, bot.name = own ∧ bot.nextBotId = some following ∧
        following ∈ (loadLinks loads).tempBots := by
  simp only [link_eq_some, lookup_iff hnames, AList.lookup_isSome, and_assoc]

/-- What `Set.first` finds in the heads. -/
theorem mem_heads {own : ChatBotId} :
    own ∈ (loadLinks loads).heads ↔
      ∃ bot ∈ loadedBots loads, bot.name = own ∧ ¬ Linked loads bot := by
  rw [LoadedLinks.heads, Finset.mem_sdiff, List.mem_toFinset, (describes_load_links loads).linked]
  constructor
  · rintro ⟨hmem, hunlinked⟩
    obtain ⟨bot, hbot⟩ := Option.isSome_iff_exists.mp (AList.lookup_isSome.mpr hmem)
    obtain ⟨hloaded, rfl⟩ := (describes_load_links loads).found hbot
    exact ⟨bot, hloaded, rfl, hunlinked⟩
  · rintro ⟨bot, hbot, rfl, hunlinked⟩
    exact ⟨(describes_load_links loads).temp bot hbot, hunlinked⟩

/-- If `Set.first` finds nothing, every loaded bot is linked. -/
theorem linked_of_none (hfirst : isFirst (loadLinks loads).heads none = true) {bot : ChatBot}
    (hbot : bot ∈ loadedBots loads) : Linked loads bot := by
  have hnone : (loadLinks loads).heads = ∅ := of_decide_eq_true hfirst
  by_contra hunlinked
  exact absurd (mem_heads.mpr ⟨bot, hbot, rfl, hunlinked⟩) (hnone ▸ Finset.notMem_empty _)

/-- No loaded bot but the start of the links is reached by them without being linked. -/
theorem eq_of_reached (hnames : ((loadedBots loads).map ChatBot.name).Nodup) {first bot : ChatBot}
    (hfirst : first ∈ loadedBots loads) (hbot : bot ∈ loadedBots loads)
    (hunlinked : ¬ Linked loads bot) (h : Reaches (loadedLink loads) first.name bot.name) :
    bot = first := by
  rcases ReflTransGen.cases_tail h with hsame | ⟨_, _, hnext⟩
  · exact List.inj_on_of_nodup_map hnames hbot hfirst hsame
  · obtain ⟨before, hbefore, _, hlink, _⟩ := (loaded_link_iff hnames).mp hnext
    exact absurd ⟨before, hbefore, hlink⟩ hunlinked

/-- The loop's list follows the links. -/
theorem follows_of_trail (hfirst : isFirst (loadLinks loads).heads (some start) = true)
    (h : Trail (loadedLink loads) start names) :
    Follows loads (numbered (loadLinks loads).tempBots.lookup 1 names) := by
  obtain ⟨hstart, hunlinked⟩ := first_spec hfirst
  have hnames := trail_names h hstart
  have hfound : ∀ bot ∈ numbered (loadLinks loads).tempBots.lookup 1 names,
      ∃ loaded, (loadLinks loads).tempBots.lookup bot.name = some loaded ∧
        bot.nextBotId = loaded.nextBotId := by
    intro bot hbot
    obtain ⟨k, hk⟩ := List.getElem?_of_mem hbot
    obtain ⟨own, loaded, _, hloaded, rfl⟩ := numbered_get hk
    obtain ⟨_, rfl⟩ := (describes_load_links loads).found hloaded
    exact ⟨loaded, hloaded, rfl⟩
  refine ⟨by rw [hnames]; exact h.nodup, fun bot hbot => ?_, ?_,
    fun bot nextName hbot hnext other hother => ?_, fun k bot hbot => ?_⟩
  · have hhead := congrArg List.head? hnames
    rw [List.head?_map, hbot, h.head] at hhead
    rintro ⟨before, hbefore, hnext⟩
    exact hunlinked before hbefore (hnext.trans hhead)
  · have hchain := h.isChain
    rw [← hnames, List.isChain_map] at hchain
    refine hchain.imp_of_mem_imp fun bot following hbot _ hlink => ?_
    obtain ⟨loaded, hloaded, hsame⟩ := hfound bot hbot
    obtain ⟨found, hfound, hnext, _⟩ := link_eq_some.mp hlink
    cases hloaded.symm.trans hfound
    exact hsame.trans hnext
  · have hlast := congrArg List.getLast? hnames
    rw [List.getLast?_map, hbot] at hlast
    obtain ⟨loaded, hloaded, hsame⟩ := hfound bot (List.mem_of_getLast? hbot)
    have hmissing := next_missing hloaded (h.last_next hlast.symm) nextName (hsame ▸ hnext)
    rintro rfl
    have hmem := (describes_load_links loads).temp other hother
    rw [← AList.lookup_isSome, hmissing] at hmem
    cases hmem
  · obtain ⟨own, loaded, _, hloaded, rfl⟩ := numbered_get hbot
    exact ⟨loaded, ((describes_load_links loads).found hloaded).1, by rw [Int.add_comm]⟩

/-- The trail passes all loaded bots, if and only if all but its start are linked and there are no
cycles. -/
theorem trail_covers_iff (hnames : ((loadedBots loads).map ChatBot.name).Nodup)
    (hfirst : isFirst (loadLinks loads).heads (some start) = true)
    (h : Trail (loadedLink loads) start names) :
    (∀ bot ∈ loadedBots loads, bot.name ∈ names) ↔
      (∃! bot, bot ∈ loadedBots loads ∧ ¬ Linked loads bot) ∧
        ∀ own, ¬ Reaches₁ (loadedLink loads) own own := by
  obtain ⟨first, hloaded, rfl, hunlinked⟩ := mem_heads.mp (of_decide_eq_true hfirst)
  constructor
  · refine fun hcovers => ⟨⟨first, ⟨hloaded, hunlinked⟩, ?_⟩, fun own hcycle => ?_⟩
    · rintro bot ⟨hbot, hother⟩
      exact eq_of_reached hnames hloaded hbot hother (h.mem_iff.mp (hcovers bot hbot))
    · obtain ⟨following, hnext, _⟩ := TransGen.head'_iff.mp hcycle
      obtain ⟨bot, hbot, rfl, _⟩ := (loaded_link_iff hnames).mp hnext
      exact h.not_cyclic (hcovers bot hbot) hcycle
  · rintro ⟨hunique, hacyclic⟩ bot hbot
    -- back from the bot there is one to which none links, and this is the start
    have hsources : ∀ own following, loadedLink loads own = some following →
        own ∈ (loadLinks loads).tempBots.keys.toFinset := by
      intro own following hnext
      obtain ⟨before, hbefore, rfl, _⟩ := (loaded_link_iff hnames).mp hnext
      exact List.mem_toFinset.mpr ((describes_load_links loads).temp before hbefore)
    obtain ⟨source, hreaches, hnone⟩ := exists_source hsources hacyclic bot.name
    obtain ⟨found, hfound, rfl⟩ : ∃ found ∈ loadedBots loads, found.name = source := by
      rcases ReflTransGen.cases_head hreaches with hsame | ⟨_, hnext, _⟩
      · exact ⟨bot, hbot, hsame.symm⟩
      · obtain ⟨found, hfound, hown, _⟩ := (loaded_link_iff hnames).mp hnext
        exact ⟨found, hfound, hown⟩
    have hsource : ¬ Linked loads found := fun ⟨before, hbefore, hlink⟩ =>
      hnone before.name ((loaded_link_iff hnames).mpr
        ⟨before, hbefore, rfl, hlink, (describes_load_links loads).temp found hfound⟩)
    rw [hunique.unique ⟨hfound, hsource⟩ ⟨hloaded, hunlinked⟩] at hreaches
    exact h.mem_iff.mpr hreaches

/-- The order of the URLs does not matter for the links. -/
theorem loaded_bots_perm (hperm : other.Perm loads) :
    (loadedBots other).Perm (loadedBots loads) :=
  hperm.filterMap _

theorem linked_perm (hperm : other.Perm loads) (bot : ChatBot) :
    Linked other bot ↔ Linked loads bot := by
  simp only [Linked, (loaded_bots_perm hperm).mem_iff]

theorem lookup_perm (hnames : ((loadedBots loads).map ChatBot.name).Nodup)
    (hperm : other.Perm loads) :
    (loadLinks other).tempBots.lookup = (loadLinks loads).tempBots.lookup := by
  have hnames' := (((loaded_bots_perm hperm).map ChatBot.name).nodup_iff).mpr hnames
  funext own
  refine Option.ext fun bot => ?_
  rw [lookup_iff hnames', lookup_iff hnames, (loaded_bots_perm hperm).mem_iff]

/-- With one unlinked bot, every other order of the URLs gives the same list. -/
theorem ends_perm (hnames : ((loadedBots loads).map ChatBot.name).Nodup)
    (hunique : ∃! bot, bot ∈ loadedBots loads ∧ ¬ Linked loads bot)
    (hfirst : isFirst (loadLinks loads).heads (some start) = true)
    (h : Trail (loadedLink loads) start names) (hperm : other.Perm loads)
    (hname : isFirst (loadLinks other).heads name = true) :
    Ends other name (numbered (loadLinks loads).tempBots.lookup 1 names) := by
  obtain ⟨first, hloaded, rfl, hunlinked⟩ := mem_heads.mp (of_decide_eq_true hfirst)
  obtain ⟨own, rfl⟩ : ∃ own, name = some own := by
    cases name with
    | none =>
        have hlinked := linked_of_none hname ((loaded_bots_perm hperm).mem_iff.mpr hloaded)
        exact absurd ((linked_perm hperm first).mp hlinked) hunlinked
    | some own => exact ⟨own, rfl⟩
  obtain ⟨found, hfound, rfl, hunlinked'⟩ := mem_heads.mp (of_decide_eq_true hname)
  cases hunique.unique
    ⟨(loaded_bots_perm hperm).mem_iff.mp hfound,
      fun hlinked => hunlinked' ((linked_perm hperm found).mpr hlinked)⟩
    ⟨hloaded, hunlinked⟩
  rw [← lookup_perm hnames hperm]
  refine ends_of_trail hname ?_
  rw [loadedLink, lookup_perm hnames hperm]
  exact h

/-- Without shared `next` links the loop ends from whatever head it starts at. -/
theorem exists_trail_of_first (hnames : ((loadedBots loads).map ChatBot.name).Nodup)
    (hnext : ∀ bot ∈ loadedBots loads, ∀ other ∈ loadedBots loads, ∀ nextName,
      bot.nextBotId = some nextName → other.nextBotId = some nextName → bot = other)
    (hfirst : isFirst (loadLinks loads).heads (some start) = true) :
    ∃ names, Trail (loadedLink loads) start names := by
  have hshared : ∀ first second following, loadedLink loads first = some following →
      loadedLink loads second = some following → first = second := by
    intro first second following hlink hlink'
    obtain ⟨bot, hbot, rfl, hnext', _⟩ := (loaded_link_iff hnames).mp hlink
    obtain ⟨other, hother, rfl, hnext'', _⟩ := (loaded_link_iff hnames).mp hlink'
    rw [hnext bot hbot other hother following hnext' hnext'']
  exact exists_trail
    (fun passed hpassed =>
      List.mem_toFinset.mpr (reached_loaded (first_spec hfirst).1 hpassed))
    (fun passed hpassed => not_cyclic_of_first
      (fun first second following _ _ => hshared first second following)
      (fun passed _ => link_ne_first hfirst passed) hpassed)

/-- If no two loaded bots have the same name or the same `next`, the loop ends. Its list is empty
when every bot is linked, and follows the links otherwise. It has all the bots, if and only if one
bot is not linked and there are no cycles, and is then the same for every order. -/
theorem store_is_chain (hsome : loadedBots loads ≠ [])
    (hnames : ((loadedBots loads).map ChatBot.name).Nodup)
    (hnext : ∀ bot ∈ loadedBots loads, ∀ other ∈ loadedBots loads, ∀ nextName,
      bot.nextBotId = some nextName → other.nextBotId = some nextName → bot = other)
    (hfirst : isFirst (loadLinks loads).heads name = true) :
    ∃ result, Ends loads name result ∧
      (result = [] ↔ ∀ bot ∈ loadedBots loads, Linked loads bot) ∧
      Follows loads result ∧
      ((∀ bot ∈ loadedBots loads, bot.name ∈ result.map ChatBot.name) ↔
        (∃! bot, bot ∈ loadedBots loads ∧ ¬ Linked loads bot) ∧
          ∀ own, ¬ Reaches₁ (loadedLink loads) own own) ∧
      ((∀ bot ∈ loadedBots loads, bot.name ∈ result.map ChatBot.name) →
        ∀ other first, other.Perm loads → isFirst (loadLinks other).heads first = true →
          Ends other first result) := by
  cases name with
  | none =>
      have hlinked : ∀ bot ∈ loadedBots loads, Linked loads bot := fun bot => linked_of_none hfirst
      obtain ⟨bot, hbot⟩ := List.exists_mem_of_ne_nil _ hsome
      refine ⟨[], ends_of_none hfirst, by simpa using hlinked, ?_, ?_, fun hcovers => ?_⟩
      · exact ⟨.nil, by simp, .nil, by simp, by simp⟩
      · refine ⟨fun hcovers => absurd (hcovers bot hbot) (by simp), ?_⟩
        rintro ⟨⟨found, ⟨hfound, hunlinked⟩, _⟩, _⟩
        exact absurd (hlinked found hfound) hunlinked
      · exact absurd (hcovers bot hbot) (by simp)
  | some start =>
      obtain ⟨names, htrail⟩ := exists_trail_of_first hnames hnext hfirst
      have hresult := trail_names htrail (first_spec hfirst).1
      have hcovers := trail_covers_iff hnames hfirst htrail
      refine ⟨_, ends_of_trail hfirst htrail, ?_, follows_of_trail hfirst htrail, ?_, ?_⟩
      · obtain ⟨first, hloaded, rfl, hunlinked⟩ := mem_heads.mp (of_decide_eq_true hfirst)
        refine ⟨fun hempty => ?_, fun hlinked => absurd (hlinked first hloaded) hunlinked⟩
        rw [hempty] at hresult
        rw [← hresult] at htrail
        cases htrail.head
      · rw [hresult]
        exact hcovers
      · intro hall other first hperm hname
        rw [hresult] at hall
        exact ends_perm hnames (hcovers.mp hall).1 hfirst htrail hperm hname

/-- Three bots in one chain. -/
theorem store_is_chain_run :
    ∃ result, Ends [some (.linking "c" none), some (.linking "a" (some "b")),
      some (.linking "b" (some "c"))] (some "a") result ∧
      Follows [some (.linking "c" none), some (.linking "a" (some "b")),
        some (.linking "b" (some "c"))] result := by
  let loads : List (Option ChatBot) := [some (.linking "c" none), some (.linking "a" (some "b")),
    some (.linking "b" (some "c"))]
  have hloaded : loadedBots loads = [.linking "c" none, .linking "a" (some "b"),
    .linking "b" (some "c")] := rfl
  have hnext : ∀ bot ∈ loadedBots loads, ∀ other ∈ loadedBots loads, ∀ nextName,
      bot.nextBotId = some nextName → other.nextBotId = some nextName → bot = other := by
    simp [hloaded, ChatBot.linking, ChatBot.nextBotId]
  obtain ⟨result, hends, _, hfollows, _⟩ :=
    @store_is_chain loads (some "a") (by decide) (by decide) hnext (by decide)
  exact ⟨result, hends, hfollows⟩

end AiGramLib
