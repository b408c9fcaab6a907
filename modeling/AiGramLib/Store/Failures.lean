import AiGramLib.Store.Coverage

/-!
# What a bot that fails to load costs the store

A bot that is not loaded does not link to the next one, and the loop of `botsInStore` builds only
one chain. If the bots of the bundle form one chain, the store therefore has all the bots that
remain exactly when they are next to each other in it: `remaining_in_store_iff`.
-/

namespace AiGramLib

open Relation StateTransition Trails

/-- The `next` links form one chain through these bots. -/
structure OneChain (chain : List ChatBot) : Prop where
  distinct : (chain.map ChatBot.name).Nodup
  links : chain.IsChain fun bot following => bot.nextBotId = some following.name
  last : ∀ bot nextName, chain.getLast? = some bot → bot.nextBotId = some nextName →
    nextName ∉ chain.map ChatBot.name

/-- What `ChatBot(url:)` gives for the directories of these bots. -/
def loadsOf (chain : List ChatBot) (fails : ChatBot → Bool) : List (Option ChatBot) :=
  chain.map fun bot => if fails bot then none else some bot

/-- The bots that do not fail to load and are not the target bot. -/
def remaining (chain : List ChatBot) (fails : ChatBot → Bool) : List ChatBot :=
  chain.filter fun bot => !fails bot && !bot.isTarget

variable {chain bots : List ChatBot} {fails : ChatBot → Bool} {loads : List (Option ChatBot)}
  {name : Option ChatBotId} {start : ChatBotId}

theorem loaded_bots_of (chain : List ChatBot) (fails : ChatBot → Bool) :
    loadedBots (loadsOf chain fails) = remaining chain fails := by
  rw [loadedBots, loadsOf, List.filterMap_map, remaining, ← List.filterMap_eq_filter]
  congr 1
  funext bot
  cases hfails : fails bot <;> simp [hfails, Option.guard, Option.filter]

/-- A chain of bots is the trail of its links. -/
theorem trail_of_links {lookup : ChatBotId → Option ChatBot} {first : ChatBot}
    (hfound : ∀ bot ∈ first :: bots, lookup bot.name = some bot)
    (hlinks : (first :: bots).IsChain fun bot following => bot.nextBotId = some following.name)
    (hlast : ∀ bot nextName, (first :: bots).getLast? = some bot → bot.nextBotId = some nextName →
      lookup nextName = none) :
    Trail (link lookup) first.name ((first :: bots).map ChatBot.name) := by
  induction bots generalizing first with
  | nil =>
      refine .last (Option.eq_none_iff_forall_ne_some.mpr fun following hlink => ?_)
      obtain ⟨bot, hbot, hnext, hsome⟩ := link_eq_some.mp hlink
      cases (hfound first List.mem_cons_self).symm.trans hbot
      rw [hlast first following rfl hnext] at hsome
      cases hsome
  | cons second rest ih =>
      obtain ⟨hnext, hrest⟩ := List.isChain_cons_cons.mp hlinks
      obtain ⟨hfirst, hfound⟩ := List.forall_mem_cons.mp hfound
      refine .step (link_eq_some.mpr ⟨first, hfirst, hnext, ?_⟩) (ih hfound hrest ?_)
      · rw [hfound second List.mem_cons_self]
        rfl
      · simpa only [List.getLast?_cons_cons] using hlast

/-- A trail through all loaded bots starts at the only one that is not linked. -/
theorem first_of_trail (hnames : ((loadedBots loads).map ChatBot.name).Nodup) {first : ChatBot}
    {names : List ChatBotId} (hmem : first ∈ loadedBots loads)
    (h : Trail (loadedLink loads) first.name names)
    (hall : ∀ bot ∈ loadedBots loads, bot.name ∈ names)
    (hfirst : isFirst (loadLinks loads).heads name = true) : name = some first.name := by
  have hunlinked : ¬ Linked loads first := by
    rintro ⟨before, hbefore, hnext⟩
    have hlink : loadedLink loads before.name = some first.name :=
      (loaded_link_iff hnames).mpr
        ⟨before, hbefore, rfl, hnext, (describes_load_links loads).temp first hmem⟩
    exact h.not_cyclic (hall first hmem)
      (TransGen.tail'_iff.mpr ⟨before.name, h.mem_iff.mp (hall before hbefore), hlink⟩)
  cases name with
  | none => exact absurd (linked_of_none hfirst hmem) hunlinked
  | some own =>
      obtain ⟨bot, hbot, rfl, hother⟩ := mem_heads.mp (of_decide_eq_true hfirst)
      rw [eq_of_reached hnames hmem hbot hother (h.mem_iff.mp (hall bot hbot))]

theorem ends_unique {result other : List ChatBot} (h : Ends loads name result)
    (hother : Ends loads name other) : result = other := by
  have hfuel := h (max result.length other.length + 1) (by omega)
  rw [hother (max result.length other.length + 1) (by omega)] at hfuel
  exact (Option.some.inj hfuel).symm

/-- The bots of the chain by their names, those that fail to load and the target bot included. -/
def chainLookup (chain : List ChatBot) (own : ChatBotId) : Option ChatBot :=
  chain.find? fun bot => bot.name == own

theorem chain_lookup_iff (h : OneChain chain) {own : ChatBotId} {bot : ChatBot} :
    chainLookup chain own = some bot ↔ bot ∈ chain ∧ bot.name = own := by
  constructor
  · intro hfound
    exact ⟨List.mem_of_find?_eq_some hfound, by simpa using List.find?_some hfound⟩
  · rintro ⟨hbot, rfl⟩
    have hsome : (chainLookup chain bot.name).isSome :=
      List.find?_isSome.mpr ⟨bot, hbot, beq_iff_eq.mpr rfl⟩
    obtain ⟨found, hfound⟩ := Option.isSome_iff_exists.mp hsome
    have hname : found.name = bot.name := by simpa using List.find?_some hfound
    have hsame := List.inj_on_of_nodup_map h.distinct (List.mem_of_find?_eq_some hfound) hbot hname
    exact hsame ▸ hfound

theorem OneChain.trail {first : ChatBot} (h : OneChain (first :: bots)) :
    Trail (link (chainLookup (first :: bots))) first.name ((first :: bots).map ChatBot.name) := by
  refine trail_of_links (fun bot hbot => (chain_lookup_iff h).mpr ⟨hbot, rfl⟩) h.links
    fun bot nextName hbot hnext => Option.eq_none_iff_forall_ne_some.mpr fun found hfound => ?_
  obtain ⟨hmem, hname⟩ := (chain_lookup_iff h).mp hfound
  exact h.last bot nextName hbot hnext (hname ▸ List.mem_map_of_mem hmem)

/-- What follows the links of a chain is a part of it. -/
theorem OneChain.infix_of_links (h : OneChain chain) {names : List ChatBotId}
    (hstart : start ∈ chain.map ChatBot.name)
    (hnames : (start :: names).IsChain fun own following =>
      link (chainLookup chain) own = some following) :
    start :: names <:+: chain.map ChatBot.name := by
  cases chain with
  | nil => cases hstart
  | cons first rest =>
      obtain ⟨suffix, htrail, hsuffix⟩ := h.trail.suffix hstart
      exact (htrail.prefix_of_isChain hnames).isInfix.trans hsuffix.isInfix

/-- A part of the chain has the names of a part of the bots. -/
theorem infix_of_map {names : List ChatBotId} (h : names <:+: chain.map ChatBot.name) :
    ∃ before part after, chain = before ++ part ++ after ∧ part.map ChatBot.name = names := by
  obtain ⟨front, back, hparts⟩ := h
  obtain ⟨middle, after, rfl, hmiddle, _⟩ := List.map_eq_append_iff.mp hparts.symm
  obtain ⟨before, part, rfl, _, hpart⟩ := List.map_eq_append_iff.mp hmiddle
  exact ⟨before, part, after, rfl, hpart⟩

/-- A filter that accepts of a list without duplicates what is in one part of it gives the part. -/
theorem filter_eq_part {α : Type} {accepts : α → Bool} {before part after : List α}
    (hnodup : (before ++ part ++ after).Nodup)
    (h : ∀ item ∈ before ++ part ++ after, accepts item = true ↔ item ∈ part) :
    (before ++ part ++ after).filter accepts = part := by
  have hafter := List.disjoint_of_nodup_append hnodup
  have hbefore := List.disjoint_of_nodup_append (List.nodup_append'.mp hnodup).1
  have hnone : before.filter accepts = [] := List.filter_eq_nil_iff.mpr fun item hitem haccepts =>
    hbefore hitem ((h item (by simp [hitem])).mp haccepts)
  have hnone' : after.filter accepts = [] := List.filter_eq_nil_iff.mpr fun item hitem haccepts =>
    hafter (List.mem_append_right _ ((h item (by simp [hitem])).mp haccepts)) hitem
  rw [List.filter_append, List.filter_append, hnone, hnone', List.nil_append, List.append_nil]
  exact List.filter_eq_self.mpr fun item hitem => (h item (by simp [hitem])).mpr hitem

/-- If the names of a part are those of the remaining bots, the part is what remains. -/
theorem OneChain.remaining_eq (h : OneChain chain) {before part after : List ChatBot}
    (hchain : chain = before ++ part ++ after)
    (hpart : ∀ own, own ∈ part.map ChatBot.name ↔ own ∈ (remaining chain fails).map ChatBot.name) :
    remaining chain fails = part := by
  -- names tell the bots of the chain apart
  have hkept : ∀ bot ∈ chain, bot ∈ remaining chain fails ↔ bot ∈ part := by
    intro bot hbot
    constructor
    · intro hremains
      obtain ⟨other, hother, hsame⟩ :=
        List.mem_map.mp ((hpart _).mpr (List.mem_map_of_mem hremains))
      have hmem : other ∈ chain := by simp [hchain, hother]
      exact List.inj_on_of_nodup_map h.distinct hmem hbot hsame ▸ hother
    · intro hmem
      obtain ⟨other, hother, hsame⟩ := List.mem_map.mp ((hpart _).mp (List.mem_map_of_mem hmem))
      have hmem' : other ∈ chain := (List.mem_filter.mp hother).1
      exact List.inj_on_of_nodup_map h.distinct hmem' hbot hsame ▸ hother
  subst hchain
  exact filter_eq_part (h.distinct.of_map _) fun bot hbot => by
    rw [← hkept bot hbot, remaining, List.mem_filter, and_iff_right hbot]

theorem loaded_iff (hloads : loads.Perm (loadsOf chain fails)) {bot : ChatBot} :
    bot ∈ loadedBots loads ↔ bot ∈ remaining chain fails := by
  rw [(loaded_bots_perm hloads).mem_iff, loaded_bots_of]

theorem OneChain.loaded_names (h : OneChain chain) (hloads : loads.Perm (loadsOf chain fails)) :
    ((loadedBots loads).map ChatBot.name).Nodup := by
  rw [((loaded_bots_perm hloads).map ChatBot.name).nodup_iff, loaded_bots_of]
  exact h.distinct.sublist (List.filter_sublist.map _)

/-- The links of the loaded bots are links of the chain. -/
theorem OneChain.link_of_loaded (h : OneChain chain) (hloads : loads.Perm (loadsOf chain fails))
    {own following : ChatBotId} (hlink : loadedLink loads own = some following) :
    link (chainLookup chain) own = some following := by
  have hmem : ∀ bot ∈ loadedBots loads, bot ∈ chain := fun bot hbot =>
    (List.mem_filter.mp ((loaded_iff hloads).mp hbot)).1
  obtain ⟨bot, hbot, hnext, hsome⟩ := link_eq_some.mp hlink
  obtain ⟨other, hother⟩ := Option.isSome_iff_exists.mp hsome
  obtain ⟨hbot, hname⟩ := (describes_load_links loads).found hbot
  obtain ⟨hother, hname'⟩ := (describes_load_links loads).found hother
  refine link_eq_some.mpr ⟨bot, (chain_lookup_iff h).mpr ⟨hmem bot hbot, hname⟩, hnext, ?_⟩
  rw [(chain_lookup_iff h).mpr ⟨hmem other hother, hname'⟩]
  rfl

/-- If the loop's list has all that remains, this is a part of the chain. -/
theorem OneChain.infix_of_covers (h : OneChain chain) (hloads : loads.Perm (loadsOf chain fails))
    (hfirst : isFirst (loadLinks loads).heads (some start) = true) {names : List ChatBotId}
    (htrail : Trail (loadedLink loads) start names)
    (hcovers : ∀ bot ∈ remaining chain fails, bot.name ∈ names) :
    remaining chain fails <:+: chain := by
  have hloaded : ∀ own ∈ names, own ∈ (remaining chain fails).map ChatBot.name := by
    intro own hown
    obtain ⟨bot, _, hbot, rfl⟩ := trail_found htrail (first_spec hfirst).1 own hown
    exact List.mem_map_of_mem ((loaded_iff hloads).mp hbot)
  have hpart : names <:+: chain.map ChatBot.name := by
    obtain ⟨rest, rfl⟩ := List.head?_eq_some_iff.mp htrail.head
    obtain ⟨bot, hbot, hname⟩ := List.mem_map.mp (hloaded start List.mem_cons_self)
    exact h.infix_of_links
      (hname ▸ List.mem_map_of_mem (List.mem_filter.mp hbot).1)
      (htrail.isChain.imp fun _ _ => h.link_of_loaded hloads)
  obtain ⟨before, part, after, hparts, rfl⟩ := infix_of_map hpart
  have hremains : remaining chain fails = part := h.remaining_eq hparts fun own =>
    ⟨hloaded own, fun hown => by
      obtain ⟨bot, hbot, rfl⟩ := List.mem_map.mp hown
      exact hcovers bot hbot⟩
  rw [hremains]
  exact ⟨before, after, hparts.symm⟩

/-- If what remains is a part of the chain, its links are a trail. -/
theorem OneChain.trail_of_infix (h : OneChain chain) (hloads : loads.Perm (loadsOf chain fails))
    {first : ChatBot} (hremains : remaining chain fails = first :: bots)
    (hpart : remaining chain fails <:+: chain) :
    Trail (loadedLink loads) first.name ((first :: bots).map ChatBot.name) := by
  have hnames := h.loaded_names hloads
  obtain ⟨before, after, hparts⟩ := hpart
  rw [hremains] at hparts
  refine trail_of_links (fun bot hbot => ?_) ?_ fun bot nextName hbot hnext => ?_
  · exact (lookup_iff hnames).mpr ⟨(loaded_iff hloads).mpr (hremains ▸ hbot), rfl⟩
  · have hlinks := h.links
    rw [← hparts] at hlinks
    exact hlinks.left_of_append.right_of_append
  · refine Option.eq_none_iff_forall_ne_some.mpr fun other hother => ?_
    obtain ⟨hmem, rfl⟩ := (lookup_iff hnames).mp hother
    have hother' : other ∈ first :: bots := hremains ▸ (loaded_iff hloads).mp hmem
    cases after with
    | nil =>
        have hlast : chain.getLast? = some bot := by
          rw [← hparts, List.append_nil, List.getLast?_append, hbot]
          rfl
        exact h.last bot other.name hlast hnext
          (List.mem_map_of_mem (List.mem_filter.mp ((loaded_iff hloads).mp hmem)).1)
    | cons second after =>
        -- the `next` of the last one is behind the part, not in it
        have hlinks := h.links
        rw [← hparts] at hlinks
        have hsecond := (List.isChain_append.mp hlinks).2.2 bot
          (by rw [List.getLast?_append, hbot]; rfl) second rfl
        have hsame : second.name = other.name := Option.some.inj (hsecond.symm.trans hnext)
        have hdistinct := h.distinct
        rw [← hparts, List.map_append] at hdistinct
        exact List.disjoint_of_nodup_append hdistinct
          (List.mem_map_of_mem (List.mem_append_right before hother'))
          (hsame ▸ List.mem_map_of_mem List.mem_cons_self)

/-- If what remains is a part of the chain, the loop's list has all of it. -/
theorem OneChain.covers_of_infix (h : OneChain chain) (hloads : loads.Perm (loadsOf chain fails))
    (hfirst : isFirst (loadLinks loads).heads name = true)
    (hpart : remaining chain fails <:+: chain) :
    ∃ result, Ends loads name result ∧
      ∀ bot ∈ remaining chain fails, (result.map ChatBot.name).count bot.name = 1 := by
  cases hremains : remaining chain fails with
  | nil =>
      have hnone : name = none := by
        cases name with
        | none => rfl
        | some own =>
            obtain ⟨bot, hbot, _⟩ := mem_heads.mp (of_decide_eq_true hfirst)
            rw [loaded_iff hloads, hremains] at hbot
            cases hbot
      subst hnone
      exact ⟨[], ends_of_none hfirst, by simp⟩
  | cons first bots =>
      have htrail := h.trail_of_infix hloads hremains hpart
      have hloaded : ∀ bot, bot ∈ loadedBots loads ↔ bot ∈ first :: bots := fun bot => by
        rw [loaded_iff hloads, hremains]
      have hname := first_of_trail (h.loaded_names hloads)
        ((hloaded first).mpr List.mem_cons_self) htrail
        (fun bot hbot => List.mem_map_of_mem ((hloaded bot).mp hbot)) hfirst
      subst hname
      refine ⟨_, ends_of_trail hfirst htrail, fun bot hbot => ?_⟩
      rw [trail_names htrail (first_spec hfirst).1]
      exact List.count_eq_one_of_mem htrail.nodup (List.mem_map_of_mem hbot)

/-- When the bots of the bundle form one chain, and some fail to load, the store has every bot
that remains exactly once, if and only if the remaining ones are next to each other in it. -/
theorem remaining_in_store_iff (h : OneChain chain) (hloads : loads.Perm (loadsOf chain fails))
    (hfirst : isFirst (loadLinks loads).heads name = true) :
    (∃ result, Ends loads name result ∧
      ∀ bot ∈ remaining chain fails, (result.map ChatBot.name).count bot.name = 1) ↔
      remaining chain fails <:+: chain := by
  refine ⟨?_, h.covers_of_infix hloads hfirst⟩
  rintro ⟨result, hends, hcount⟩
  have hcovers : ∀ bot ∈ remaining chain fails, bot.name ∈ result.map ChatBot.name := by
    intro bot hbot
    exact List.count_pos_iff.mp (by rw [hcount bot hbot]; exact Nat.one_pos)
  cases name with
  | none =>
      rw [ends_unique hends (ends_of_none hfirst)] at hcovers
      rw [List.eq_nil_iff_forall_not_mem.mpr fun bot hbot => List.not_mem_nil (hcovers bot hbot)]
      exact List.nil_infix
  | some start =>
      obtain ⟨names, htrail⟩ := trail_of_ends hfirst hends
      rw [ends_unique hends (ends_of_trail hfirst htrail),
        trail_names htrail (first_spec hfirst).1] at hcovers
      exact h.infix_of_covers hloads hfirst htrail hcovers

/-- Three bots in one chain. -/
def threeBots : List ChatBot :=
  [.linking "a" (some "b"), .linking "b" (some "c"), .linking "c" none]

theorem three_bots_chain : OneChain threeBots where
  distinct := by decide
  links := by decide
  last := by
    rintro _ nextName ⟨⟩ ⟨⟩

/-- The first of the three fails to load. -/
theorem remaining_in_store_run :
    ∃ result, Ends [some (.linking "c" none), none, some (.linking "b" (some "c"))] (some "b")
      result ∧ (result.map ChatBot.name).count "c" = 1 := by
  obtain ⟨result, hends, hcount⟩ := (@remaining_in_store_iff threeBots (fun bot => bot.name == "a")
    [some (.linking "c" none), none, some (.linking "b" (some "c"))] (some "b") three_bots_chain
    (by decide) (by decide)).mpr (by decide)
  exact ⟨result, hends, hcount (.linking "c" none) (List.mem_filter.mpr ⟨by simp [threeBots], rfl⟩)⟩

/-- The second of the three fails to load: the store has only one of the other two. -/
theorem remaining_not_in_store :
    OneChain threeBots ∧ ∃ fails loads name, loads.Perm (loadsOf threeBots fails) ∧
      isFirst (loadLinks loads).heads name = true ∧
      ¬ ∃ result, Ends loads name result ∧
        ∀ bot ∈ remaining threeBots fails, (result.map ChatBot.name).count bot.name = 1 := by
  let loads : List (Option ChatBot) :=
    [some (.linking "a" (some "b")), none, some (.linking "c" none)]
  have hfirst : isFirst (loadLinks loads).heads (some "a") = true := by decide
  refine ⟨three_bots_chain, fun bot => bot.name == "b", loads, some "a", by decide, hfirst, ?_⟩
  rintro ⟨result, hends, hcount⟩
  have htrail : Trail (loadedLink loads) "a" ["a"] := .last (by decide)
  have hmissing := hcount (.linking "c" none) (List.mem_filter.mpr ⟨by simp [threeBots], rfl⟩)
  rw [ends_unique hends (ends_of_trail hfirst htrail), trail_names htrail (first_spec hfirst).1]
    at hmissing
  exact absurd hmissing (by decide)

end AiGramLib
