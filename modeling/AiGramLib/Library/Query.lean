import Mathlib.Algebra.GroupWithZero.Nat
import Mathlib.Data.List.TakeWhile

/-!
# The query of a URL

A query is a list of items `key=value` with `&` between them. It begins after the first `?` of
the URL and ends where the fragment begins, at `#`; keys and values are percent-encoded. `render`
puts keys and values into a query as they are, without an encoding. `parse_render_iff` says when
they come back all the same: if and only if no value has one of the characters `#`, `&` and `%`.
-/

namespace Query

/-- The value of a hexadecimal digit. -/
def hexValue (char : Char) : Option Nat :=
  if '0' ≤ char ∧ char ≤ '9' then some (char.toNat - '0'.toNat)
  else if 'A' ≤ char ∧ char ≤ 'F' then some (char.toNat - 'A'.toNat + 10)
  else if 'a' ≤ char ∧ char ≤ 'f' then some (char.toNat - 'a'.toNat + 10)
  else none

/-- The bytes of a text, with a byte for each percent sign and the two digits after it; `none` if
there are no two digits after one. -/
def percentDecode : List Char → Option (List UInt8)
  | [] => some []
  | '%' :: high :: low :: rest => do
      let high ← hexValue high
      let low ← hexValue low
      let bytes ← percentDecode rest
      pure (UInt8.ofNat (16 * high + low) :: bytes)
  | char :: rest =>
      if char = '%' then none
      else (percentDecode rest).map fun bytes => String.utf8EncodeChar char ++ bytes

/-- The text that is encoded, if the bytes are one. -/
def removingPercentEncoding (text : List Char) : Option String := do
  let bytes ← percentDecode text
  String.fromUTF8? bytes.toByteArray

/-- An item, split at the first `=`. -/
def parseItem (item : List Char) : Option (String × String) := do
  let key ← removingPercentEncoding (item.takeWhile (· ≠ '='))
  let value ← removingPercentEncoding ((item.dropWhile (· ≠ '=')).drop 1)
  pure (key, value)

def parse (query : List Char) : Option (List (String × String)) :=
  (query.splitOn '&').mapM parseItem

def withoutFragment (text : List Char) : List Char := text.takeWhile (· ≠ '#')

/-- The query of a URL. -/
def ofURL (url : List Char) : List Char := ((withoutFragment url).dropWhile (· ≠ '?')).drop 1

def renderItem (item : String × String) : List Char :=
  item.1.toList ++ '=' :: item.2.toList

def render : List (String × String) → List Char
  | [] => []
  | [item] => renderItem item
  | item :: next :: rest => renderItem item ++ '&' :: render (next :: rest)

/-- The characters that stand for themselves in a value. -/
def PlainChar (char : Char) : Prop := char ≠ '#' ∧ char ≠ '&' ∧ char ≠ '%'

instance : DecidablePred PlainChar := fun _ => inferInstanceAs (Decidable (_ ∧ _))

/-- The characters that do not end the value they are in. -/
def inValue (char : Char) : Bool := char ≠ '#' ∧ char ≠ '&'

def Plain (text : String) : Prop := ∀ char ∈ text.toList, PlainChar char

/-- The texts that stand for themselves as keys. -/
def PlainKey (text : String) : Prop := Plain text ∧ '=' ∉ text.toList

/-- The number of bytes of a text in UTF-8. -/
def utf8Length (text : List Char) : Nat := (text.map Char.utf8Size).sum

variable {text : List Char}

theorem percent_decode_cons {char : Char} (h : char ≠ '%') (rest : List Char) :
    percentDecode (char :: rest) =
      (percentDecode rest).map fun bytes => String.utf8EncodeChar char ++ bytes := by
  rw [percentDecode]
  · rw [if_neg h]
  · rintro high low rest' rfl
    exact absurd rfl h

/-- A text without percent signs is decoded to its own bytes. -/
theorem percent_decode_of_not_mem (h : '%' ∉ text) :
    percentDecode text = some (text.flatMap String.utf8EncodeChar) := by
  induction text with
  | nil => rfl
  | cons char rest ih =>
      simp only [List.mem_cons, not_or] at h
      rw [percent_decode_cons (Ne.symm h.1), ih h.2, Option.map_some, List.flatMap_cons]

theorem removing_percent_encoding_of_not_mem (h : '%' ∉ text) :
    removingPercentEncoding text = some (String.ofList text) := by
  rw [removingPercentEncoding, percent_decode_of_not_mem h]
  show String.fromUTF8? text.utf8Encode = _
  rw [String.fromUTF8?, dif_pos ByteArray.isValidUTF8_utf8Encode]
  rfl

/-- A hexadecimal digit has one byte, and is not a percent sign. -/
theorem hex_digit {char : Char} {value : Nat} (h : hexValue char = some value) :
    char ≠ '%' ∧ char.utf8Size = 1 := by
  have hle : char ≤ 'f' ∧ '0' ≤ char := by
    unfold hexValue at h
    split at h
    · rename_i hdigit
      exact ⟨Char.le_trans hdigit.2 (by decide), hdigit.1⟩
    · split at h
      · rename_i hdigit
        exact ⟨Char.le_trans hdigit.2 (by decide), Char.le_trans (by decide) hdigit.1⟩
      · split at h
        · rename_i hdigit
          exact ⟨hdigit.2, Char.le_trans (by decide) hdigit.1⟩
        · cases h
  refine ⟨?_, ?_⟩
  · rintro rfl
    exact absurd hle.2 (by decide)
  · have hval : char.val ≤ 0x7f := UInt32.le_trans hle.1 (by decide)
    simp [Char.utf8Size, hval]

/-- Decoding turns three bytes into one at each percent sign, and keeps all others. -/
theorem percent_decode_length {bytes : List UInt8} (h : percentDecode text = some bytes) :
    bytes.length + 2 * text.count '%' = utf8Length text := by
  induction text using percentDecode.induct generalizing bytes with
  | case1 =>
      cases h
      rfl
  | case2 high low rest ih =>
      obtain ⟨first, hfirst, h⟩ := Option.bind_eq_some_iff.mp h
      obtain ⟨second, hsecond, h⟩ := Option.bind_eq_some_iff.mp h
      obtain ⟨left, hleft, h⟩ := Option.bind_eq_some_iff.mp h
      cases h
      have hrest := ih hleft
      obtain ⟨hhigh, hhigh'⟩ := hex_digit hfirst
      obtain ⟨hlow, hlow'⟩ := hex_digit hsecond
      have hsize : ('%' : Char).utf8Size = 1 := by decide
      simp only [utf8Length, List.map_cons, List.sum_cons, List.length_cons, hhigh', hlow', hsize,
        List.count_cons_self, List.count_cons_of_ne hhigh, List.count_cons_of_ne hlow] at hrest ⊢
      omega
  | case3 rest hshort =>
      rw [percentDecode] at h
      · cases h
      · exact hshort
  | case4 char rest hshort hchar ih =>
      rw [percent_decode_cons hchar] at h
      obtain ⟨left, hleft, rfl⟩ := Option.map_eq_some_iff.mp h
      have hrest := ih hleft
      simp only [utf8Length, List.map_cons, List.sum_cons, List.length_append,
        String.length_utf8EncodeChar, List.count_cons_of_ne hchar] at hrest ⊢
      omega

/-- The number of bytes of a text is that of the bytes it is encoded to. -/
theorem length_utf8_encode (text : List Char) : text.utf8Encode.size = utf8Length text := by
  rw [List.utf8Encode, List.size_toByteArray, List.length_flatMap, utf8Length]
  simp only [String.length_utf8EncodeChar]

theorem removing_percent_encoding_length {value : String}
    (h : removingPercentEncoding text = some value) :
    utf8Length value.toList + 2 * text.count '%' = utf8Length text := by
  obtain ⟨bytes, hbytes, hvalue⟩ := Option.bind_eq_some_iff.mp h
  have hsize : bytes.length = utf8Length value.toList := by
    rw [String.fromUTF8?] at hvalue
    split at hvalue
    · obtain rfl := Option.some.inj hvalue
      rw [← length_utf8_encode, String.utf8Encode_toList]
      exact List.size_toByteArray.symm
    · cases hvalue
  rw [← hsize]
  exact percent_decode_length hbytes

/-- Characters have at least a byte each. -/
theorem eq_nil_of_utf8_length (h : utf8Length text = 0) : text = [] := by
  cases text with
  | nil => rfl
  | cons char rest =>
      have hpos := char.utf8Size_pos
      simp only [utf8Length, List.map_cons, List.sum_cons] at h
      omega

theorem utf8_length_append (first second : List Char) :
    utf8Length (first ++ second) = utf8Length first + utf8Length second := by
  rw [utf8Length, List.map_append, List.sum_append]
  rfl

/-- What comes before the first character that ends a value is decoded to the whole value if and
only if there is no such character and no percent sign. -/
theorem removing_percent_encoding_iff (value : String) :
    removingPercentEncoding (value.toList.takeWhile inValue) = some value ↔ Plain value := by
  constructor
  · intro h
    have hlength := removing_percent_encoding_length h
    have hsplit := List.takeWhile_append_dropWhile (p := inValue) (l := value.toList)
    have hsum := congrArg utf8Length hsplit
    rw [utf8_length_append] at hsum
    have hnone : value.toList.dropWhile inValue = [] := eq_nil_of_utf8_length (by omega)
    rw [hnone, List.append_nil] at hsplit
    rw [hsplit] at hlength
    have hpercent : '%' ∉ value.toList := List.count_eq_zero.mp (by omega)
    intro char hchar
    have hinside := List.takeWhile_eq_self_iff.mp hsplit char hchar
    simp only [inValue, decide_eq_true_eq] at hinside
    exact ⟨hinside.1, hinside.2, fun heq => hpercent (heq ▸ hchar)⟩
  · intro h
    rw [List.takeWhile_eq_self_iff.mpr, removing_percent_encoding_of_not_mem]
    · rw [String.ofList_toList]
    · intro hmem
      exact (h _ hmem).2.2 rfl
    · intro char hchar
      exact decide_eq_true ⟨(h char hchar).1, (h char hchar).2.1⟩

/-- The first item of a query is what comes before its first `&`. -/
theorem parse_append {front : List Char} (h : '&' ∉ front) (rest : List Char) :
    parse (front ++ '&' :: rest) =
      (parseItem front).bind fun item => (parse rest).map fun items => item :: items := by
  rw [parse, List.splitOn_append_cons_self, List.splitOn_eq_singleton h, List.singleton_append,
    List.mapM_cons]
  show ((parseItem front).bind fun item =>
    (parse rest).bind fun items => some (item :: items)) = _
  cases parse rest <;> rfl

theorem parse_of_not_mem (h : '&' ∉ text) :
    parse text = (parseItem text).map fun item => [item] := by
  rw [parse, List.splitOn_eq_singleton h]
  cases hitem : parseItem text <;> simp [hitem]

theorem take_while_ne_append {front : List Char} {char : Char} (h : char ∉ front)
    (rest : List Char) : (front ++ char :: rest).takeWhile (· ≠ char) = front := by
  rw [List.takeWhile_append_of_pos, List.takeWhile_cons_of_neg, List.append_nil]
  · simp
  · intro other hother
    exact decide_eq_true fun heq => h (heq ▸ hother)

theorem parse_head {item : String × String} {items : List (String × String)}
    (h : parse text = some (item :: items)) :
    parseItem (text.takeWhile (· ≠ '&')) = some item := by
  by_cases hmem : '&' ∈ text
  · obtain ⟨front, rest, rfl, hfront⟩ := List.eq_append_cons_of_mem hmem
    rw [parse_append hfront] at h
    obtain ⟨first, hfirst, h⟩ := Option.bind_eq_some_iff.mp h
    obtain ⟨others, -, h⟩ := Option.map_eq_some_iff.mp h
    cases h
    rw [take_while_ne_append hfront]
    exact hfirst
  · rw [parse_of_not_mem hmem] at h
    obtain ⟨first, hfirst, h⟩ := Option.map_eq_some_iff.mp h
    cases h
    rw [List.takeWhile_eq_self_iff.mpr]
    · exact hfirst
    · intro char hchar
      exact decide_eq_true fun heq => hmem (heq ▸ hchar)

/-- The value of an item is what comes after the key. -/
theorem parse_item_append {key : String} (h : PlainKey key) (rest : List Char) :
    parseItem (key.toList ++ '=' :: rest) =
      (removingPercentEncoding rest).map fun value => (key, value) := by
  have hpercent : '%' ∉ key.toList := fun hmem => (h.1 _ hmem).2.2 rfl
  have hdrop : (key.toList ++ '=' :: rest).dropWhile (· ≠ '=') = '=' :: rest := by
    rw [List.dropWhile_append_of_pos, List.dropWhile_cons_of_neg]
    · simp
    · intro char hchar
      exact decide_eq_true fun heq => h.2 (heq ▸ hchar)
  rw [parseItem, take_while_ne_append h.2, hdrop, removing_percent_encoding_of_not_mem hpercent,
    String.ofList_toList]
  cases hvalue : removingPercentEncoding rest <;> simp [hvalue]

theorem without_fragment_append {front : List Char} (h : '#' ∉ front) (rest : List Char) :
    withoutFragment (front ++ rest) = front ++ withoutFragment rest :=
  List.takeWhile_append_of_pos fun _ hchar => decide_eq_true fun heq => h (heq ▸ hchar)

/-- The query of a URL is what comes after the question mark, without the fragment. -/
theorem of_url_append {front : List Char} (hfragment : '#' ∉ front) (hmark : '?' ∉ front)
    (query : List Char) : ofURL (front ++ '?' :: query) = withoutFragment query := by
  have hcut : withoutFragment (front ++ '?' :: query) = front ++ '?' :: withoutFragment query := by
    rw [without_fragment_append hfragment]
    rfl
  rw [ofURL, hcut, List.dropWhile_append_of_pos, List.dropWhile_cons_of_neg (by decide),
    List.drop_one, List.tail_cons]
  exact fun _ hchar => decide_eq_true fun heq => hmark (heq ▸ hchar)

/-- What follows the first item of a query. -/
def renderRest : List (String × String) → List Char
  | [] => []
  | item :: rest => '&' :: render (item :: rest)

theorem render_cons (item : String × String) (rest : List (String × String)) :
    render (item :: rest) = item.1.toList ++ '=' :: (item.2.toList ++ renderRest rest) := by
  cases rest <;> simp [render, renderRest, renderItem]

/-- What the separator and the characters of all items are, all characters of the query are. -/
theorem forall_mem_render {items : List (String × String)} {P : Char → Prop}
    (hseparator : P '&') :
    (∀ char ∈ render items, P char) ↔ ∀ item ∈ items, ∀ char ∈ renderItem item, P char := by
  induction items with
  | nil => simp [render]
  | cons item rest ih =>
      cases rest with
      | nil => simp [render]
      | cons next rest =>
          rw [render, List.forall_mem_append, List.forall_mem_cons, ih, List.forall_mem_cons]
          simp [hseparator]

/-- Whatever follows it, the first value is read up to the first character that ends it. -/
theorem first_value (value : List Char) (rest : List (String × String)) :
    (value ++ renderRest rest).takeWhile inValue = value.takeWhile inValue := by
  have hrest : (renderRest rest).takeWhile inValue = [] := by
    cases rest with
    | nil => rfl
    | cons item rest => exact List.takeWhile_cons_of_neg (by decide)
  rw [List.takeWhile_append]
  split
  · rename_i hall
    rw [hrest, List.append_nil]
    exact (List.takeWhile_prefix inValue).eq_of_length hall |>.symm
  · rfl

/-- If the items come back, the first value has no character that has to be encoded. -/
theorem plain_of_parse {item : String × String} {rest : List (String × String)}
    (hkey : PlainKey item.1)
    (h : parse (withoutFragment (render (item :: rest))) = some (item :: rest)) :
    Plain item.2 := by
  have hfirst := parse_head h
  -- up to the first `&` or `#` there is the key, and the value up to there
  have htext : (withoutFragment (render (item :: rest))).takeWhile (· ≠ '&') =
      item.1.toList ++ '=' :: item.2.toList.takeWhile inValue := by
    have hends : (render (item :: rest)).takeWhile inValue =
        item.1.toList ++ '=' :: item.2.toList.takeWhile inValue := by
      rw [render_cons, List.takeWhile_append_of_pos, List.takeWhile_cons_of_pos (by decide),
        first_value]
      intro char hchar
      exact decide_eq_true ⟨(hkey.1 char hchar).1, (hkey.1 char hchar).2.1⟩
    rw [← hends, withoutFragment, List.takeWhile_takeWhile]
    congr 1
    funext _
    simp [inValue, and_comm]
  rw [htext, parse_item_append hkey] at hfirst
  obtain ⟨value, hvalue, hitem⟩ := Option.map_eq_some_iff.mp hfirst
  rw [← removing_percent_encoding_iff, hvalue, ← hitem]

/-- A character that needs encoding is not in an item of plain texts. -/
theorem not_mem_render_item {item : String × String} (hkey : PlainKey item.1)
    (hvalue : Plain item.2) {char : Char} (hchar : ¬ PlainChar char) (hequals : char ≠ '=') :
    char ∉ renderItem item := by
  intro hmem
  rcases List.mem_append.mp hmem with hmem | hmem
  · exact hchar (hkey.1 char hmem)
  · rcases List.mem_cons.mp hmem with heq | hmem
    · exact hequals heq
    · exact hchar (hvalue char hmem)

/-- An item whose value needs no encoding is one item of the query, and comes back. -/
theorem parse_render_item {item : String × String} (hkey : PlainKey item.1)
    (hvalue : Plain item.2) :
    '#' ∉ renderItem item ∧ '&' ∉ renderItem item ∧ parseItem (renderItem item) = some item := by
  refine ⟨not_mem_render_item hkey hvalue (by decide) (by decide),
    not_mem_render_item hkey hvalue (by decide) (by decide), ?_⟩
  rw [renderItem, parse_item_append hkey, removing_percent_encoding_of_not_mem,
    String.ofList_toList]
  · rfl
  · exact fun hmem => (hvalue _ hmem).2.2 rfl

/-- Keys and values that are put into a query as they are come back from it, if and only if the
values have none of the characters `#`, `&` and `%`. -/
theorem parse_render_iff {items : List (String × String)} (hne : items ≠ [])
    (hkeys : ∀ item ∈ items, PlainKey item.1) :
    parse (withoutFragment (render items)) = some items ↔ ∀ item ∈ items, Plain item.2 := by
  induction items with
  | nil => exact absurd rfl hne
  | cons item rest ih =>
      obtain ⟨hkey, hkeys⟩ := List.forall_mem_cons.mp hkeys
      by_cases hplain : Plain item.2
      · obtain ⟨hfragment, hseparator, hitem⟩ := parse_render_item hkey hplain
        cases rest with
        | nil =>
            have hsame : withoutFragment (render [item]) = renderItem item := by
              have happend := without_fragment_append hfragment []
              rw [List.append_nil] at happend
              exact happend.trans (List.append_nil _)
            rw [hsame, parse_of_not_mem hseparator, hitem]
            simp [hplain]
        | cons next rest =>
            have hsame : withoutFragment (render (item :: next :: rest)) =
                renderItem item ++ '&' :: withoutFragment (render (next :: rest)) := by
              rw [render, without_fragment_append hfragment]
              rfl
            rw [hsame, parse_append hseparator, hitem, Option.bind_some]
            rw [List.forall_mem_cons, ← ih (List.cons_ne_nil _ _) hkeys]
            cases parse (withoutFragment (render (next :: rest))) <;> simp [hplain]
      · refine ⟨fun h => absurd (plain_of_parse hkey h) hplain, fun h => ?_⟩
        exact absurd (h item List.mem_cons_self) hplain

end Query
