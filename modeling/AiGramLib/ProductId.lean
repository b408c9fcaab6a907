import Mathlib.Data.List.Nodup
import AiGramLib.Entities

/-!
# Product identifiers and the bots they name

`BotsStoreManager` sells a bot under `idOfBot`, the fixed string `idPrefix` followed by the
bot's name or its entry in `namesMap`. The handler of purchased transactions goes back from a
product identifier to a name with a split at periods and `idsMap`, in code of its own. The
main result, `name_of_id_of_name_iff`, says for which names the two agree; it is about
strings compared scalar by scalar, which for ASCII names is how Swift compares them.
-/

namespace AiGramLib

/-- The string that every product identifier starts with. -/
def idPrefix : String := "com.olcorporation.olai.bot."

def namesMap : List (ChatBotId × String) :=
  [("celentano", "Celentano"), ("lannister", "tyrion"), ("spongebob", "sponge_bob")]

def idsMap : List (String × ChatBotId) :=
  [("Celentano", "celentano"), ("tyrion", "lannister"), ("sponge_bob", "spongebob")]

/-- `string.split(separator:)`: the pieces between separators, without the empty ones. The string is
one in which every period is a `Character` of its own, with no combining scalar behind it. -/
def split (string : String) (separator : Char) : List String :=
  ((string.toList.splitOn separator).filter fun piece => !piece.isEmpty).map String.ofList

/-- The product identifier of a bot with this name. -/
def idOfName (name : ChatBotId) : String :=
  idPrefix ++ (namesMap.lookup name).getD name

def idOfBot (bot : ChatBot) : String :=
  idOfName bot.name

/-- The bot name that the handler of a purchased transaction computes from a product
identifier; `none` where `split(separator: ".").last` is `nil`. -/
def nameOfId (productIdentifier : String) : Option ChatBotId :=
  (split productIdentifier '.').getLast?.map fun nameSeq => (idsMap.lookup nameSeq).getD nameSeq

/-- The bot that the handler looks up for a product identifier in the list of loaded bots. -/
def purchasedBot (loadedBotsInStore : List ChatBot) (productIdentifier : String) :
    Option ChatBot := do
  let name ← nameOfId productIdentifier
  loadedBotsInStore.find? fun bot => bot.name == name

/-- The name comes back from the product identifier made of it. -/
def SurvivesMaps (name : ChatBotId) : Prop :=
  nameOfId (idOfName name) = some name

instance (name : ChatBotId) : Decidable (SurvivesMaps name) :=
  inferInstanceAs (Decidable (_ = _))

/-- No piece of a split contains the separator. -/
theorem not_mem_of_mem_split_on {chars piece : List Char} {separator : Char}
    (h : piece ∈ chars.splitOn separator) : separator ∉ piece := by
  induction chars generalizing piece with
  | nil => simp_all
  | cons char rest ih =>
      rw [List.splitOn_cons_eq_if_modifyHead] at h
      split at h
      · rcases List.mem_cons.mp h with rfl | hrest
        · simp
        · exact ih hrest
      · rename_i hchar
        cases hsplit : rest.splitOn separator with
        | nil => simp [hsplit] at h
        | cons first others =>
            rw [hsplit, List.modifyHead_cons, List.mem_cons] at h
            rcases h with rfl | hothers
            · have hfirst := ih (hsplit ▸ List.mem_cons_self)
              simp only [List.mem_cons, not_or]
              exact ⟨fun heq => hchar (by simp [heq]), hfirst⟩
            · exact ih (hsplit ▸ List.mem_cons_of_mem _ hothers)

/-- The pieces of a split are non-empty and free of the separator. -/
theorem of_mem_split {string piece : String} {separator : Char}
    (h : piece ∈ split string separator) : piece ≠ "" ∧ separator ∉ piece.toList := by
  simp only [split, List.mem_map, List.mem_filter] at h
  obtain ⟨chars, ⟨hmem, hempty⟩, rfl⟩ := h
  refine ⟨?_, by simpa using not_mem_of_mem_split_on hmem⟩
  rintro heq
  have : chars = [] := by simpa using congrArg String.toList heq
  simp [this] at hempty

/-- A non-empty string free of the separator is its own only piece. -/
theorem split_of_not_mem {string : String} {separator : Char} (hempty : string ≠ "")
    (h : separator ∉ string.toList) : split string separator = [string] := by
  have hchars : string.toList ≠ [] := fun heq => hempty (by simpa using heq)
  simp [split, List.splitOn_eq_singleton h, hchars]

/-- A split at a separator splits the two sides. -/
theorem split_append (front rest : List Char) (separator : Char) :
    split (String.ofList (front ++ separator :: rest)) separator =
      split (String.ofList front) separator ++ split (String.ofList rest) separator := by
  simp [split, List.splitOn_append_cons_self]

/-- The pieces of a product identifier are those of the fixed string and those of the rest. -/
theorem split_id_prefix (rest : String) :
    split (idPrefix ++ rest) '.' = ["com", "olcorporation", "olai", "bot"] ++ split rest '.' := by
  have hfixed : split "com.olcorporation.olai.bot" '.' = ["com", "olcorporation", "olai", "bot"] :=
    by decide
  have hperiod : idPrefix.toList = "com.olcorporation.olai.bot".toList ++ ['.'] := by decide
  have hchars : idPrefix ++ rest =
      String.ofList ("com.olcorporation.olai.bot".toList ++ '.' :: rest.toList) := by
    apply String.ext
    simp [String.toList_append, hperiod]
  rw [hchars, split_append, String.ofList_toList, String.ofList_toList, hfixed]

/-- A key that is not among a map's keys has no entry. -/
theorem lookup_of_not_mem_keys {map : List (String × String)} {key : String}
    (h : key ∉ map.map Prod.fst) : map.lookup key = none := by
  rw [List.lookup_eq_none_iff]
  intro entry hentry
  have hne : key ≠ entry.1 := fun heq => h (heq ▸ List.mem_map_of_mem hentry)
  simpa using hne

/-- What the handler computes is never empty and never contains a period. -/
theorem of_name_of_id {productIdentifier name : String}
    (h : nameOfId productIdentifier = some name) :
    name ≠ "" ∧ '.' ∉ name.toList := by
  obtain ⟨nameSeq, hlast, hname⟩ := Option.map_eq_some_iff.mp h
  have hpiece := of_mem_split (List.mem_of_getLast? hlast)
  by_cases hspecial : nameSeq ∈ ["Celentano", "tyrion", "sponge_bob"]
  · simp only [List.mem_cons, List.not_mem_nil, or_false] at hspecial
    rcases hspecial with rfl | rfl | rfl <;> subst hname <;> decide
  · have hlookup : idsMap.lookup nameSeq = none := lookup_of_not_mem_keys hspecial
    rw [hlookup] at hname
    exact hname ▸ hpiece

/-- A name with no entry in either map, non-empty and without a period, comes back. -/
theorem name_of_id_of_plain {name : String} (hempty : name ≠ "") (hperiod : '.' ∉ name.toList)
    (hnames : namesMap.lookup name = none) (hids : idsMap.lookup name = none) :
    nameOfId (idOfName name) = some name := by
  have hsplit : split (idOfName name) '.' = ["com", "olcorporation", "olai", "bot"] ++ [name] := by
    rw [idOfName, hnames, Option.getD_none, split_id_prefix, split_of_not_mem hempty hperiod]
  simp [nameOfId, hsplit, hids]

/-- A name survives the two maps exactly if it is non-empty, has no period and is not one of
the three names that `idsMap` sends elsewhere. -/
theorem survives_maps_iff (name : ChatBotId) :
    SurvivesMaps name ↔
      name ≠ "" ∧ '.' ∉ name.toList ∧ name ∉ ["Celentano", "tyrion", "sponge_bob"] := by
  constructor
  · intro h
    refine ⟨(of_name_of_id h).1, (of_name_of_id h).2, fun hspecial => ?_⟩
    simp only [List.mem_cons, List.not_mem_nil, or_false] at hspecial
    rcases hspecial with rfl | rfl | rfl <;> exact absurd h (by decide)
  · rintro ⟨hempty, hperiod, hspecial⟩
    have hids : idsMap.lookup name = none := lookup_of_not_mem_keys hspecial
    by_cases hmapped : name ∈ ["celentano", "lannister", "spongebob"]
    · simp only [List.mem_cons, List.not_mem_nil, or_false] at hmapped
      rcases hmapped with rfl | rfl | rfl <;> decide
    · have hnames : namesMap.lookup name = none := lookup_of_not_mem_keys hmapped
      exact name_of_id_of_plain hempty hperiod hnames hids

/-- Among the names that survive the maps, the product identifier determines the name. -/
theorem SurvivesMaps.injective {name other : ChatBotId} (h : SurvivesMaps name)
    (hother : SurvivesMaps other) (hid : idOfName name = idOfName other) : name = other := by
  have heq : some name = some other := by
    rw [← h, ← hother, hid]
  exact Option.some.inj heq

/-- The handler looks for the name of the bot that was bought. -/
theorem purchased_bot_of_survives {bot : ChatBot} (h : SurvivesMaps bot.name)
    (loadedBotsInStore : List ChatBot) :
    purchasedBot loadedBotsInStore (idOfBot bot) =
      loadedBotsInStore.find? fun found => found.name == bot.name := by
  have hname : nameOfId (idOfBot bot) = some bot.name := h
  simp [purchasedBot, hname]

/-- In a list of bots with different names, looking for a member's name finds the member. -/
theorem find_name_of_mem {bots : List ChatBot} (hnodup : (bots.map ChatBot.name).Nodup)
    {bot : ChatBot} (hmem : bot ∈ bots) :
    (bots.find? fun found => found.name == bot.name) = some bot := by
  induction bots with
  | nil => cases hmem
  | cons first rest ih =>
      obtain ⟨hfirst, hrest⟩ := List.nodup_cons.mp hnodup
      rcases List.mem_cons.mp hmem with rfl | hmem
      · simp
      · have hne : first.name ≠ bot.name := fun heq =>
          hfirst (heq ▸ List.mem_map_of_mem hmem)
        simpa [List.find?_cons, hne] using ih hrest hmem

/-- A product identifier names the bot that is delivered: the names that come back are the
non-empty ones without a period other than three, these have different product identifiers,
and the purchase of such a bot looks up that bot among loaded bots with different names. -/
theorem name_of_id_of_name_iff :
    (∀ name, nameOfId (idOfName name) = some name ↔
      name ≠ "" ∧ '.' ∉ name.toList ∧ name ∉ ["Celentano", "tyrion", "sponge_bob"]) ∧
    (∀ name other, SurvivesMaps name → SurvivesMaps other → name ≠ other →
      idOfName name ≠ idOfName other) ∧
    (∀ (loadedBotsInStore : List ChatBot) (bot : ChatBot), SurvivesMaps bot.name →
      purchasedBot loadedBotsInStore (idOfBot bot) =
        (loadedBotsInStore.find? fun found => found.name == bot.name) ∧
      ((loadedBotsInStore.map ChatBot.name).Nodup → bot ∈ loadedBotsInStore →
        purchasedBot loadedBotsInStore (idOfBot bot) = some bot)) := by
  refine ⟨survives_maps_iff, ?_, ?_⟩
  · intro name other h hother hne hid
    exact hne (h.injective hother hid)
  · intro loadedBotsInStore bot h
    have hfind := purchased_bot_of_survives h loadedBotsInStore
    refine ⟨hfind, fun hnodup hmem => ?_⟩
    rw [hfind]
    exact find_name_of_mem hnodup hmem

/-- Two bots in the store, one of them with an entry in the maps. -/
theorem name_of_id_of_name_run :
    idOfName "celentano" ≠ idOfName "snow" ∧
    purchasedBot [.named "celentano", .named "snow"] (idOfBot (.named "celentano")) =
      some (.named "celentano") := by
  have hmapped : SurvivesMaps "celentano" := by decide
  have hplain : SurvivesMaps "snow" := by decide
  obtain ⟨-, hdistinct, hbought⟩ := name_of_id_of_name_iff
  exact ⟨hdistinct _ _ hmapped hplain (by decide),
    (hbought [.named "celentano", .named "snow"] (.named "celentano") hmapped).2 (by decide)
      List.mem_cons_self⟩

end AiGramLib
