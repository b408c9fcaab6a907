import AiGramLib.Details.Machine
import AiGramLib.LocalBot
import AiGramLib.Library.Json

/-!
# The types that are read from JSON

The codings that Swift derives for the `Codable` types of the library: the information, words
and responses in a bot directory, and the answers of the server. A file is represented in
`AiGramLib.FileSystem` by what it decodes to, and an answer in `AiGramLib.Details.Machine`;
`File.ofJson` and `Payload.ofJson` are what these are for a given JSON value. What `ChatBot.init`
loads can be written back and loads again as the same bot (`saved_bot_loads`).
-/

namespace AiGramLib

open Json (Coding)

def ChatBotType.rawValue : ChatBotType → String
  | .bot => "bot"

def ChatBotTag.rawValue : ChatBotTag → String
  | .paid => "paid"
  | .free => "free"
  | .men => "men"
  | .women => "women"
  | .unisex => "unisex"
  | .films => "films"
  | .cartoon => "cartoon"
  | .known => "known"
  | .collections => "collections"
  | .great => "great"

def ChatBotType.coding : Coding ChatBotType :=
  .raw ChatBotType.rawValue [.bot] (fun type other _ => by cases type; cases other; rfl)
    fun type => by cases type; decide

def ChatBotTag.coding : Coding ChatBotTag :=
  .raw ChatBotTag.rawValue
    [.paid, .free, .men, .women, .unisex, .films, .cartoon, .known, .collections, .great]
    (fun tag other h => by
      cases tag <;> cases other <;> first | rfl | exact absurd h (by decide))
    fun tag => by cases tag <;> decide

namespace ChatBotInfo

def fields (info : ChatBotInfo) : List (String × Option Json) := [
  ("title", some (Coding.string.encode info.title)),
  ("name", some (Coding.string.encode info.name)),
  ("shortDescription", some (Coding.string.encode info.shortDescription)),
  ("type", some (ChatBotType.coding.encode info.type)),
  ("tags", some (ChatBotTag.coding.array.encode info.tags)),
  ("next", info.next.map Coding.string.encode),
  ("price", info.price.map Coding.int.encode),
  ("addDate", some (Coding.string.encode info.addDate)),
  ("updateDate", some (Coding.string.encode info.updateDate)),
  ("developer", some (Coding.string.encode info.developer))]

/-- `encode(to:)` -/
def encode (info : ChatBotInfo) : Json := .record info.fields

/-- `init(from:)` -/
def decode (json : Json) : Option ChatBotInfo := do
  let title ← Coding.string.decodeKey json "title"
  let name ← Coding.string.decodeKey json "name"
  let shortDescription ← Coding.string.decodeKey json "shortDescription"
  let type ← ChatBotType.coding.decodeKey json "type"
  let tags ← ChatBotTag.coding.array.decodeKey json "tags"
  let next ← Coding.string.decodeKeyIfPresent json "next"
  let price ← Coding.int.decodeKeyIfPresent json "price"
  let addDate ← Coding.string.decodeKey json "addDate"
  let updateDate ← Coding.string.decodeKey json "updateDate"
  let developer ← Coding.string.decodeKey json "developer"
  pure { title, name, shortDescription, type, tags, next, price, addDate, updateDate, developer }

theorem member_encode {info : ChatBotInfo} {key : String} {value : Option Json}
    (h : (key, value) ∈ info.fields) : (encode info).member key = value :=
  Json.member_record (by simp [fields]) h

/-- Only a price can fail to fit. -/
theorem decode_encode {info : ChatBotInfo} (h : ∀ price ∈ info.price, Coding.int.fits price) :
    decode (encode info) = some info := by
  have hstring : ∀ {key value}, (key, some (Coding.string.encode value)) ∈ info.fields →
      Coding.string.decodeKey (encode info) key = some value := fun hfield =>
    Coding.decode_key_of_member (member_encode hfield) trivial
  have htype : ChatBotType.coding.decodeKey (encode info) "type" = some info.type :=
    Coding.decode_key_of_member (member_encode (by simp [fields])) trivial
  have htags : ChatBotTag.coding.array.decodeKey (encode info) "tags" = some info.tags :=
    Coding.decode_key_of_member (member_encode (by simp [fields])) fun _ _ => trivial
  have hnext : Coding.string.decodeKeyIfPresent (encode info) "next" = some info.next :=
    Coding.decode_key_if_present_of_member (member_encode (by simp [fields]))
      (fun _ _ => trivial) fun _ => Json.noConfusion
  have hprice : Coding.int.decodeKeyIfPresent (encode info) "price" = some info.price :=
    Coding.decode_key_if_present_of_member (member_encode (by simp [fields])) h
      fun _ => Json.noConfusion
  simp only [decode, htype, htags, hnext, hprice,
    @hstring "title" info.title (by simp [fields]), @hstring "name" info.name (by simp [fields]),
    @hstring "shortDescription" info.shortDescription (by simp [fields]),
    @hstring "addDate" info.addDate (by simp [fields]),
    @hstring "updateDate" info.updateDate (by simp [fields]),
    @hstring "developer" info.developer (by simp [fields])]
  rfl

/-- A price that has been read fits. -/
theorem fits_of_decode {json : Json} {info : ChatBotInfo} (h : decode json = some info) :
    ∀ price ∈ info.price, Coding.int.fits price := by
  simp only [decode, Option.bind_eq_bind, Option.bind_eq_some_iff] at h
  obtain ⟨_, _, _, _, _, _, _, _, _, _, _, _, price, hprice, _, _, _, _, _, _, hinfo⟩ := h
  cases hinfo
  exact Coding.fits_of_decode_key_if_present hprice

def coding : Coding ChatBotInfo where
  encode := encode
  decode := decode
  fits info := ∀ price ∈ info.price, Coding.int.fits price
  decode_encode := decode_encode
  fits_of_decode := fits_of_decode

end ChatBotInfo

namespace BotResponse

def encode (response : BotResponse) : Json :=
  .record [
    ("response", some (Coding.string.array.encode response.response)),
    ("tag", some (Coding.string.encode response.tag))]

def decode (json : Json) : Option BotResponse := do
  let response ← Coding.string.array.decodeKey json "response"
  let tag ← Coding.string.decodeKey json "tag"
  pure { response, tag }

def coding : Coding BotResponse where
  encode := encode
  decode := decode
  fits _ := True
  decode_encode := by
    intro response _
    have hresponse : Coding.string.array.decodeKey (encode response) "response" =
        some response.response :=
      Coding.decode_key_record (by simp) (by simp) fun _ _ => trivial
    have htag : Coding.string.decodeKey (encode response) "tag" = some response.tag :=
      Coding.decode_key_record (by simp) (by simp) trivial
    simp only [decode, hresponse, htag]
    rfl
  fits_of_decode _ := trivial

end BotResponse

namespace ChatBotBackDetails

def encode (details : ChatBotBackDetails) : Json :=
  .record [
    ("name", some (Coding.string.encode details.name)),
    ("installation", some (Coding.string.encode details.installation)),
    ("deletion", some (Coding.string.encode details.deletion)),
    ("theme", some (Coding.string.encode details.theme)),
    ("phrase", some (Coding.string.encode details.phrase)),
    ("price", some (Coding.string.encode details.price)),
    ("rating", some (Coding.string.encode details.rating)),
    ("votings", some (Coding.string.encode details.votings))]

def decode (json : Json) : Option ChatBotBackDetails := do
  let name ← Coding.string.decodeKey json "name"
  let installation ← Coding.string.decodeKey json "installation"
  let deletion ← Coding.string.decodeKey json "deletion"
  let theme ← Coding.string.decodeKey json "theme"
  let phrase ← Coding.string.decodeKey json "phrase"
  let price ← Coding.string.decodeKey json "price"
  let rating ← Coding.string.decodeKey json "rating"
  let votings ← Coding.string.decodeKey json "votings"
  pure { name, installation, deletion, theme, phrase, price, rating, votings }

def coding : Coding ChatBotBackDetails where
  encode := encode
  decode := decode
  fits _ := True
  decode_encode := by
    intro details _
    have hstring : ∀ {key value}, _ → Coding.string.decodeKey (encode details) key = some value :=
      fun hfield => Coding.decode_key_record (by simp) hfield trivial
    simp only [decode, @hstring "name" details.name (by simp),
      @hstring "installation" details.installation (by simp),
      @hstring "deletion" details.deletion (by simp), @hstring "theme" details.theme (by simp),
      @hstring "phrase" details.phrase (by simp), @hstring "price" details.price (by simp),
      @hstring "rating" details.rating (by simp), @hstring "votings" details.votings (by simp)]
    rfl
  fits_of_decode _ := trivial

end ChatBotBackDetails

namespace ChatBotDetailsRated

/-- The coding keys name two of the members differently. -/
def encode (rated : ChatBotDetailsRated) : Json :=
  .record [
    ("user_id", some (Coding.string.encode rated.userId)),
    ("bot_id", some (Coding.string.encode rated.botId)),
    ("rating", some (Coding.string.encode rated.rating))]

def decode (json : Json) : Option ChatBotDetailsRated := do
  let userId ← Coding.string.decodeKey json "user_id"
  let botId ← Coding.string.decodeKey json "bot_id"
  let rating ← Coding.string.decodeKey json "rating"
  pure { userId, botId, rating }

def coding : Coding ChatBotDetailsRated where
  encode := encode
  decode := decode
  fits _ := True
  decode_encode := by
    intro rated _
    have hstring : ∀ {key value}, _ → Coding.string.decodeKey (encode rated) key = some value :=
      fun hfield => Coding.decode_key_record (by simp) hfield trivial
    simp only [decode, @hstring "user_id" rated.userId (by simp),
      @hstring "bot_id" rated.botId (by simp), @hstring "rating" rated.rating (by simp)]
    rfl
  fits_of_decode _ := trivial

end ChatBotDetailsRated

/-- The `payload` of an answer, for answers with elements of this type. -/
def TempBackDetails.decode {T : Type} (coding : Coding T) (json : Json) : Option (List T) :=
  coding.array.decodeKey json "payload"

end AiGramLib
