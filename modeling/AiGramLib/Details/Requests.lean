import AiGramLib.Details.Machine
import AiGramLib.Library.Query

/-!
# The addresses of the server calls

`rateBot`, `enableBot` and `isBotRatedBy` put the name of a bot into the query of an address as
it is. `server_call_faithful_iff` says for which names the server gets the parameters that are
meant: those of characters that may stand in a query, without `#`, `&` and `%`.
-/

namespace AiGramLib.Details

/-- The characters that stand for themselves in the query of a URL. -/
def queryChar (char : Char) : Bool :=
  char.isAlphanum || "-._~!$&'()*+,;=:@/?".toList.contains char

/-- Letters and digits need no encoding. -/
theorem of_alphanum {char : Char} (h : char.isAlphanum = true) :
    queryChar char = true ∧ Query.PlainChar char ∧ char ≠ '=' := by
  refine ⟨by rw [queryChar, h, Bool.true_or], ⟨?_, ?_, ?_⟩, ?_⟩ <;>
    · rintro rfl
      exact absurd h (by decide)

theorem functions_url_chars : ∀ char ∈ functionsUrl.toList, queryChar char = true ∧ char ≠ '?' := by
  have hchars : functionsUrl.toList.all (fun char => queryChar char && char != '?') = true := by
    decide
  intro char hchar
  simpa using List.all_eq_true.mp hchars char hchar

/-- The characters that there can be in a URL. -/
def urlChar (char : Char) : Bool :=
  queryChar char || "#[]%".toList.contains char

/-- What the library uses of `URL(string:)`. -/
structure URLParser where
  /-- Whether there is a URL for a string. -/
  accepts : String → Bool
  /-- Whether a character is accepted in a query. -/
  inQuery : Char → Bool
  rejects : ∀ {string : String} {char : Char}, char ∈ string.toList → urlChar char = false →
    accepts string = false
  inQuery_of_queryChar : ∀ {char : Char}, queryChar char = true → inQuery char = true
  accepts_query : ∀ {function : String} {query : List Char},
    (∀ char ∈ function.toList, char.isAlphanum = true) →
    (∀ char ∈ query, char ≠ '#' ∧ char ≠ '%') →
    (accepts (functionsUrl ++ function ++ "?" ++ String.ofList query) = true ↔
      ∀ char ∈ query, inQuery char = true)

/-- The calls whose addresses have the name of a bot in them. -/
inductive ServerCall where
  | rateBot (bot : ChatBot) (rating userId : Int)
  | enableBot (bot : ChatBot) (enabled : Bool) (userId : Int)
  | isBotRatedBy (userId : Int) (bot : ChatBot)

namespace ServerCall

def make (s : State) : ServerCall → State
  | .rateBot bot rating userId => Details.rateBot s bot rating userId
  | .enableBot bot enabled userId => Details.enableBot s bot enabled userId
  | .isBotRatedBy userId bot => Details.isBotRatedBy s userId bot

def bot : ServerCall → ChatBot
  | .rateBot bot _ _ => bot
  | .enableBot bot _ _ => bot
  | .isBotRatedBy _ bot => bot

/-- The function of the server that is called. -/
def function : ServerCall → String
  | .rateBot _ _ _ => "voteBot"
  | .enableBot _ _ _ => "installDeleteBot"
  | .isBotRatedBy _ _ => "getBotVoting"

/-- The parameters that it is to be called with. -/
def parameters : ServerCall → List (String × String)
  | .rateBot bot rating userId =>
      [("user_id", toString userId), ("bot_id", bot.name), ("rating", toString rating)]
  | .enableBot bot enabled userId =>
      [("bot_id", bot.name), ("type", toString (if enabled then 1 else 2)),
        ("user_id", toString userId)]
  | .isBotRatedBy userId bot => [("user_id", toString userId), ("bot_id", bot.name)]

/-- The address for a call, with its parameters as they are. -/
def url (call : ServerCall) : String :=
  functionsUrl ++ call.function ++ "?" ++ String.ofList (Query.render call.parameters)

/-- A call makes a data task for this address. -/
theorem tasks_make (s : State) (call : ServerCall) :
    ∃ handler, (call.make s).tasks = s.tasks ++ [⟨call.url, handler⟩] := by
  cases call with
  | rateBot bot rating userId =>
      have hurl : (ServerCall.rateBot bot rating userId).url =
          functionsUrl ++ ("voteBot?user_id=" ++ toString userId ++ "&bot_id=" ++ bot.name ++
            "&rating=" ++ toString rating) := by
        apply String.toList_injective
        simp [url, function, parameters, Query.render, Query.renderItem]
      rw [hurl]
      exact ⟨.vote s.calls.length, rfl⟩
  | enableBot bot enabled userId =>
      have hurl : (ServerCall.enableBot bot enabled userId).url =
          functionsUrl ++ ("installDeleteBot?bot_id=" ++ bot.name ++ "&type=" ++
            toString (if enabled then 1 else 2) ++ "&user_id=" ++ toString userId) := by
        apply String.toList_injective
        simp [url, function, parameters, Query.render, Query.renderItem]
      rw [hurl]
      exact ⟨.enabling s.calls.length, rfl⟩
  | isBotRatedBy userId bot =>
      have hurl : (ServerCall.isBotRatedBy userId bot).url =
          functionsUrl ++ ("getBotVoting?user_id=" ++ toString userId ++ "&bot_id=" ++
            bot.name) := by
        apply String.toList_injective
        simp [url, function, parameters, Query.render, Query.renderItem]
      rw [hurl]
      exact ⟨.voting s.calls.length, rfl⟩

theorem function_alphanum (call : ServerCall) :
    ∀ char ∈ call.function.toList, char.isAlphanum = true := by
  cases call with
  | rateBot =>
      show ∀ char ∈ "voteBot".toList, char.isAlphanum = true
      exact List.all_eq_true.mp (by decide)
  | enableBot =>
      show ∀ char ∈ "installDeleteBot".toList, char.isAlphanum = true
      exact List.all_eq_true.mp (by decide)
  | isBotRatedBy =>
      show ∀ char ∈ "getBotVoting".toList, char.isAlphanum = true
      exact List.all_eq_true.mp (by decide)

/-- The keys are these four, and the values are the name of the bot and numbers. -/
theorem of_mem_parameters {call : ServerCall} {parameter : String × String}
    (h : parameter ∈ call.parameters) :
    parameter.1 ∈ ["user_id", "bot_id", "rating", "type"] ∧
      (parameter.2 = call.bot.name ∨ ∃ number : Int, parameter.2 = toString number) := by
  cases call with
  | rateBot bot rating userId =>
      simp only [parameters, List.mem_cons, List.not_mem_nil, or_false] at h
      rcases h with rfl | rfl | rfl
      · exact ⟨by simp, .inr ⟨userId, rfl⟩⟩
      · exact ⟨by simp, .inl rfl⟩
      · exact ⟨by simp, .inr ⟨rating, rfl⟩⟩
  | enableBot bot enabled userId =>
      simp only [parameters, List.mem_cons, List.not_mem_nil, or_false] at h
      rcases h with rfl | rfl | rfl
      · exact ⟨by simp, .inl rfl⟩
      · exact ⟨by simp, .inr ⟨(if enabled then 1 else 2 : Nat), rfl⟩⟩
      · exact ⟨by simp, .inr ⟨userId, rfl⟩⟩
  | isBotRatedBy userId bot =>
      simp only [parameters, List.mem_cons, List.not_mem_nil, or_false] at h
      rcases h with rfl | rfl
      · exact ⟨by simp, .inr ⟨userId, rfl⟩⟩
      · exact ⟨by simp, .inl rfl⟩

/-- The keys need no encoding. -/
theorem key_plain {call : ServerCall} {parameter : String × String}
    (h : parameter ∈ call.parameters) :
    Query.PlainKey parameter.1 ∧ ∀ char ∈ parameter.1.toList, queryChar char = true := by
  have hkeys : ["user_id", "bot_id", "rating", "type"].all (fun key =>
      key.toList.all fun char => char.isAlphanum || char == '_') = true := by decide
  have hchars := List.all_eq_true.mp (List.all_eq_true.mp hkeys _ (of_mem_parameters h).1)
  have hplain : ∀ char ∈ parameter.1.toList,
      queryChar char = true ∧ Query.PlainChar char ∧ char ≠ '=' := by
    intro char hchar
    have hletter := hchars char hchar
    rw [Bool.or_eq_true, beq_iff_eq] at hletter
    rcases hletter with halphanum | rfl
    · exact of_alphanum halphanum
    · decide
  refine ⟨⟨fun char hchar => (hplain char hchar).2.1, fun hequals => ?_⟩,
    fun char hchar => (hplain char hchar).1⟩
  exact (hplain '=' hequals).2.2 rfl

theorem name_mem_parameters (call : ServerCall) :
    ("bot_id", call.bot.name) ∈ call.parameters := by
  cases call <;> simp [parameters, bot]

end ServerCall

/-- A number is written with digits and a sign. -/
theorem char_of_int {number : Int} {char : Char} (h : char ∈ (toString number).toList) :
    queryChar char = true ∧ Query.PlainChar char := by
  have hdigit : char = '-' ∨ char.isDigit = true := by
    cases number with
    | ofNat n =>
        have hmem : char ∈ Nat.toDigits 10 n := by simpa [Int.repr] using h
        exact .inr (Nat.isDigit_of_mem_toDigits (by decide) (by decide) hmem)
    | negSucc n =>
        have hmem : char = '-' ∨ char ∈ Nat.toDigits 10 (n + 1) := by simpa [Int.repr] using h
        exact hmem.imp_right (Nat.isDigit_of_mem_toDigits (by decide) (by decide))
  rcases hdigit with rfl | hdigit
  · decide
  · obtain ⟨hquery, hplain, -⟩ := of_alphanum (by rw [Char.isAlphanum, hdigit, Bool.or_true])
    exact ⟨hquery, hplain⟩

/-- There is a URL for the string, and its query has exactly these parameters. -/
structure FaithfulAddress (parser : URLParser) (url : String)
    (parameters : List (String × String)) : Prop where
  accepted : parser.accepts url = true
  parsed : Query.parse (Query.ofURL url.toList) = some parameters

/-- The name of a bot that may stand in a query as it is. -/
def FitsQuery (parser : URLParser) (name : ChatBotId) : Prop :=
  ∀ char ∈ name.toList, parser.inQuery char = true ∧ Query.PlainChar char

namespace ServerCall

variable {call : ServerCall}

/-- What the characters of the name and those of all queries are, those of all values are. -/
theorem forall_mem_values {P : Char → Prop} (hnumber : ∀ char, queryChar char = true →
    Query.PlainChar char → P char) :
    (∀ parameter ∈ call.parameters, ∀ char ∈ parameter.2.toList, P char) ↔
      ∀ char ∈ call.bot.name.toList, P char := by
  refine ⟨fun h => h _ call.name_mem_parameters, fun h parameter hmem char hchar => ?_⟩
  rcases (of_mem_parameters hmem).2 with hname | ⟨number, hvalue⟩
  · exact h char (hname ▸ hchar)
  · obtain ⟨hquery, hplain⟩ := char_of_int (hvalue ▸ hchar)
    exact hnumber char hquery hplain

theorem parameters_ne_nil (call : ServerCall) : call.parameters ≠ [] :=
  List.ne_nil_of_mem call.name_mem_parameters

/-- The query of the address is that of the parameters, up to the first `#`. -/
theorem of_url_url (call : ServerCall) :
    Query.ofURL call.url.toList = Query.withoutFragment (Query.render call.parameters) := by
  have hfunctions : '#' ∉ functionsUrl.toList ∧ '?' ∉ functionsUrl.toList :=
    ⟨fun hmem => absurd (functions_url_chars _ hmem).1 (by decide),
      fun hmem => (functions_url_chars _ hmem).2 rfl⟩
  have hfunction : '#' ∉ call.function.toList ∧ '?' ∉ call.function.toList :=
    ⟨fun hmem => absurd (call.function_alphanum _ hmem) (by decide),
      fun hmem => absurd (call.function_alphanum _ hmem) (by decide)⟩
  have hurl : call.url.toList = (functionsUrl.toList ++ call.function.toList) ++
      '?' :: Query.render call.parameters := by
    simp [url]
  rw [hurl]
  apply Query.of_url_append
  · simp [hfunctions.1, hfunction.1]
  · simp [hfunctions.2, hfunction.2]

/-- The parameters come back from the address, if and only if the name of the bot has none of the
characters `#`, `&` and `%`. -/
theorem parse_url_iff (call : ServerCall) :
    Query.parse (Query.ofURL call.url.toList) = some call.parameters ↔
      Query.Plain call.bot.name := by
  rw [of_url_url, Query.parse_render_iff call.parameters_ne_nil fun parameter hmem =>
    (key_plain hmem).1]
  exact forall_mem_values fun _ _ hplain => hplain

/-- What the characters of a query are anyway, all of this one are, if those of the name are. -/
theorem forall_mem_query {P : Char → Prop} (hquery : ∀ char, queryChar char = true → P char) :
    (∀ char ∈ Query.render call.parameters, P char) ↔ ∀ char ∈ call.bot.name.toList, P char := by
  rw [Query.forall_mem_render (hquery '&' (by decide)),
    ← forall_mem_values fun char hchar _ => hquery char hchar]
  refine forall₂_congr fun parameter hmem => ?_
  rw [Query.renderItem, List.forall_mem_append, List.forall_mem_cons]
  refine ⟨fun h => h.2.2, fun h => ⟨fun char hchar => ?_, hquery '=' (by decide), h⟩⟩
  exact hquery char ((key_plain hmem).2 char hchar)

/-- If the name has no `#` and no `%`, there is a URL if and only if all characters of the name
are accepted. -/
theorem accepts_url_iff (parser : URLParser)
    (hname : ∀ char ∈ call.bot.name.toList, char ≠ '#' ∧ char ≠ '%') :
    parser.accepts call.url = true ↔
      ∀ char ∈ call.bot.name.toList, parser.inQuery char = true := by
  have hothers : ∀ char, queryChar char = true → char ≠ '#' ∧ char ≠ '%' := by
    intro char hchar
    constructor
    · rintro rfl
      exact absurd hchar (by decide)
    · rintro rfl
      exact absurd hchar (by decide)
  rw [url, parser.accepts_query call.function_alphanum ((forall_mem_query hothers).mpr hname)]
  exact forall_mem_query fun _ => parser.inQuery_of_queryChar

/-- An address is faithful if and only if the name of the bot fits into a query. -/
theorem faithful_url_iff (parser : URLParser) :
    FaithfulAddress parser call.url call.parameters ↔ FitsQuery parser call.bot.name := by
  constructor
  · intro h
    have hname := call.parse_url_iff.mp h.parsed
    have hinside := (accepts_url_iff parser fun char hchar =>
      ⟨(hname char hchar).1, (hname char hchar).2.2⟩).mp h.accepted
    exact fun char hchar => ⟨hinside char hchar, hname char hchar⟩
  · intro h
    refine ⟨(accepts_url_iff parser fun char hchar => ?_).mpr fun char hchar => (h char hchar).1,
      call.parse_url_iff.mpr fun char hchar => (h char hchar).2⟩
    exact ⟨(h char hchar).2.1, (h char hchar).2.2.2⟩

end ServerCall

/-- The address that a server call makes a data task for is accepted and has exactly the
parameters that are meant, if and only if the name of the bot fits into a query. -/
theorem server_call_faithful_iff (parser : URLParser) (s : State) (call : ServerCall) :
    ∃ task, (call.make s).tasks = s.tasks ++ [task] ∧
      (FaithfulAddress parser task.url call.parameters ↔ FitsQuery parser call.bot.name) := by
  obtain ⟨handler, htasks⟩ := call.tasks_make s
  exact ⟨_, htasks, ServerCall.faithful_url_iff parser⟩

/-- A parser that accepts all characters that stand for themselves in a query, and the two that
begin a fragment and an encoded character. -/
def strictParser : URLParser where
  accepts string := string.toList.all fun char => queryChar char || char == '#' || char == '%'
  inQuery := queryChar
  rejects := by
    intro string char hmem hchar
    rw [List.all_eq_false]
    refine ⟨char, hmem, fun haccepted => ?_⟩
    simp only [urlChar, Bool.or_eq_false_iff] at hchar
    obtain ⟨hquery, hother⟩ := hchar
    simp only [hquery, Bool.false_or, Bool.or_eq_true, beq_iff_eq] at haccepted
    rcases haccepted with rfl | rfl <;> exact absurd hother (by decide)
  inQuery_of_queryChar h := h
  accepts_query := by
    intro function query hfunction hquery
    have hfunctions : ∀ char ∈ functionsUrl.toList, queryChar char = true := fun char hchar =>
      (functions_url_chars char hchar).1
    have hfunction' : ∀ char ∈ function.toList, queryChar char = true := fun char hchar =>
      (of_alphanum (hfunction char hchar)).1
    rw [List.all_eq_true]
    constructor
    · intro h char hchar
      have haccepted := h char (by simp [hchar])
      simpa [(hquery char hchar).1, (hquery char hchar).2] using haccepted
    · intro h char hchar
      simp only [String.toList_append, String.toList_ofList, List.mem_append] at hchar
      have hmark : queryChar '?' = true := by decide
      have hquery' : queryChar char = true := by
        rcases hchar with ((hchar | hchar) | hchar) | hchar
        · exact hfunctions char hchar
        · exact hfunction' char hchar
        · obtain rfl : char = '?' := by simpa using hchar
          exact hmark
        · exact h char hchar
      simp [hquery']

/-- A name with a space, for which there is no URL, and one with an `&`, of which the server gets
what is before it. -/
theorem server_call_not_faithful :
    let s : State := .initial ∅ true
    (∃ task, (rateBot s (.named "a b") 5 1).tasks = s.tasks ++ [task] ∧
      ∀ parser : URLParser, parser.accepts task.url = false) ∧
    ∃ task, (rateBot s (.named "a&b") 5 1).tasks = s.tasks ++ [task] ∧
      strictParser.accepts task.url = true ∧
      Query.parse (Query.ofURL task.url.toList) =
        some [("user_id", "1"), ("bot_id", "a"), ("b", ""), ("rating", "5")] := by
  intro s
  constructor
  · let call := ServerCall.rateBot (.named "a b") 5 1
    obtain ⟨handler, htasks⟩ := call.tasks_make s
    refine ⟨_, htasks, fun parser => ?_⟩
    have hspace : ' ' ∈ call.url.toList := by
      simp [call, ServerCall.url, ServerCall.parameters, Query.render, Query.renderItem,
        ChatBot.named, ChatBot.name]
    exact parser.rejects hspace (by decide)
  · let call := ServerCall.rateBot (.named "a&b") 5 1
    obtain ⟨handler, htasks⟩ := call.tasks_make s
    refine ⟨_, htasks, ?_, ?_⟩
    · have hname : call.bot.name.toList = ['a', '&', 'b'] := by decide
      refine (call.accepts_url_iff strictParser ?_).mpr ?_
      · rw [hname]
        simp
      · rw [hname]
        exact List.all_eq_true.mp (by decide)
    · rw [ServerCall.of_url_url]
      decide

end AiGramLib.Details
