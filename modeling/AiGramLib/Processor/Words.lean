import Mathlib.Data.List.Basic

/-!
# The words of a message

`BotProcessor.words(of:)` hands a message to a linguistic tagger. A Swift string counts extended
grapheme clusters, and the range given to the tagger is made of that count, while the tagger, as
everything of Foundation, counts UTF-16 code units. A character has one unit or more, so the
range never reaches beyond the message, but it can end before it; `words_of_iff` says when words
are lost by that.
-/

namespace AiGramLib.BotProcessor

/-- A `Character` of a Swift string: an extended grapheme cluster. -/
structure Character where
  scalars : List Char
  nonempty : scalars ≠ []

/-- A Swift string, as the collection of its characters. -/
abbrev Message := List Character

/-- The UTF-16 code units of a Unicode scalar: itself, or a pair of surrogates. -/
def utf16OfScalar (scalar : Char) : List UInt16 :=
  if scalar.toNat < 0x10000 then [UInt16.ofNat scalar.toNat]
  else
    let code := scalar.toNat - 0x10000
    [UInt16.ofNat (0xD800 + code / 0x400), UInt16.ofNat (0xDC00 + code % 0x400)]

def Character.utf16 (character : Character) : List UInt16 :=
  character.scalars.flatMap utf16OfScalar

/-- The code units of a message, as `NSString` has them. -/
def utf16 (message : Message) : List UInt16 :=
  message.flatMap Character.utf16

structure NSRange where
  location : Nat
  length : Nat
  deriving DecidableEq, Repr

/-- Two ranges have a position in common. -/
def NSRange.overlaps (range other : NSRange) : Bool :=
  max range.location other.location <
    min (range.location + range.length) (other.location + other.length)

/-- `(message as NSString).substring(with:)` -/
def substring (text : List UInt16) (range : NSRange) : List UInt16 :=
  (text.drop range.location).take range.length

/-- What the code uses of `NSLinguisticTagger`, with its scheme and options, and of
`lowercased()`. -/
structure LinguisticTagger where
  /-- The ranges of the tokens of a text but for punctuation and whitespace, in order. -/
  tokens : List UInt16 → List NSRange
  nonempty : ∀ {text token}, token ∈ tokens text → 0 < token.length
  inside : ∀ {text token}, token ∈ tokens text → token.location + token.length ≤ text.length
  /-- The string with these code units in lower case. -/
  lowercased : List UInt16 → String

/-- `enumerateTags(in:scheme:options:)` calls its block for the tokens that overlap the range. -/
def LinguisticTagger.enumerateTags (tagger : LinguisticTagger) (text : List UInt16)
    (range : NSRange) : List NSRange :=
  (tagger.tokens text).filter fun token => token.overlaps range

/-- `words(of:)` -/
def words (tagger : LinguisticTagger) (message : Message) : List String :=
  let text := utf16 message
  -- `message.count` is a number of characters, not of code units
  let range : NSRange := ⟨0, message.length⟩
  (tagger.enumerateTags text range).map fun tokenRange =>
    tagger.lowercased (substring text tokenRange)

/-- The lowercased texts of all tokens of a message. -/
def allWords (tagger : LinguisticTagger) (message : Message) : List String :=
  (tagger.tokens (utf16 message)).map fun token =>
    tagger.lowercased (substring (utf16 message) token)

/-- The range given to the tagger covers all code units of the message. -/
def RangeCovers (message : Message) : Prop :=
  (utf16 message).length ≤ message.length

variable {tagger : LinguisticTagger} {message : Message}

theorem utf16_of_scalar_pos (scalar : Char) : 0 < (utf16OfScalar scalar).length := by
  unfold utf16OfScalar
  split <;> simp

/-- A character has at least one code unit. -/
theorem Character.utf16_pos (character : Character) : 0 < character.utf16.length := by
  obtain ⟨scalars, hscalars⟩ := character
  obtain ⟨scalar, rest, rfl⟩ := List.exists_cons_of_ne_nil hscalars
  have hpos := utf16_of_scalar_pos scalar
  simp only [Character.utf16, List.flatMap_cons, List.length_append]
  omega

/-- The range given to the tagger is one of the message. -/
theorem length_le_utf16 (message : Message) : message.length ≤ (utf16 message).length := by
  induction message with
  | nil => simp
  | cons character rest ih =>
      have hpos := character.utf16_pos
      simp only [utf16, List.flatMap_cons, List.length_append, List.length_cons] at ih ⊢
      omega

/-- It covers the message if and only if every character is a single code unit. -/
theorem range_covers_iff :
    RangeCovers message ↔ ∀ character ∈ message, character.utf16.length = 1 := by
  unfold RangeCovers
  induction message with
  | nil => simp [utf16]
  | cons character rest ih =>
      have hpos := character.utf16_pos
      have hrest := length_le_utf16 rest
      rw [List.forall_mem_cons, ← ih]
      simp only [utf16, List.flatMap_cons, List.length_append, List.length_cons] at hrest ⊢
      omega

/-- A token overlaps the range if and only if it begins in it. -/
theorem overlaps_iff {token : NSRange} (h : 0 < token.length) (length : Nat) :
    token.overlaps ⟨0, length⟩ = true ↔ token.location < length := by
  simp only [NSRange.overlaps, decide_eq_true_eq]
  omega

/-- All words are found, if and only if no token begins beyond the range; and the range covers
the message, if and only if every character is a single code unit. -/
theorem words_of_iff (tagger : LinguisticTagger) (message : Message) :
    (words tagger message = allWords tagger message ↔
      ∀ token ∈ tagger.tokens (utf16 message), token.location < message.length) ∧
    (RangeCovers message ↔ ∀ character ∈ message, character.utf16.length = 1) := by
  refine ⟨⟨fun hsame token htoken => ?_, fun hinside => ?_⟩, range_covers_iff⟩
  · have hlength := congrArg List.length hsame
    simp only [words, allWords, LinguisticTagger.enumerateTags, List.length_map] at hlength
    have hall := List.length_filter_eq_length_iff.mp hlength token htoken
    exact (overlaps_iff (tagger.nonempty htoken) _).mp hall
  · have hall : tagger.enumerateTags (utf16 message) ⟨0, message.length⟩ =
        tagger.tokens (utf16 message) :=
      List.filter_eq_self.mpr fun token htoken =>
        (overlaps_iff (tagger.nonempty htoken) _).mpr (hinside token htoken)
    simp only [words, allWords, hall]

/-- A range that covers the message loses no word. -/
theorem words_of_covered (h : RangeCovers message) :
    words tagger message = allWords tagger message := by
  refine (words_of_iff tagger message).1.mpr fun token htoken => ?_
  have hpos := tagger.nonempty htoken
  have hinside := tagger.inside htoken
  unfold RangeCovers at h
  omega

def notSpace (unit : UInt16) : Bool := unit != 32

/-- A tagger that takes the text between spaces for tokens and knows no capital letters. -/
def spaceTagger : LinguisticTagger where
  tokens text :=
    ((List.range text.length).filter fun i =>
      text[i]?.any notSpace && !(text.take i).getLast?.any notSpace).map fun i =>
        ⟨i, ((text.drop i).takeWhile notSpace).length⟩
  nonempty := by
    intro text token htoken
    obtain ⟨i, hi, rfl⟩ := List.mem_map.mp htoken
    obtain ⟨hlt, hstart⟩ := List.mem_filter.mp hi
    rw [List.mem_range] at hlt
    simp only [Bool.and_eq_true, List.getElem?_eq_getElem hlt, Option.any_some] at hstart
    rw [List.drop_eq_getElem_cons hlt, List.takeWhile_cons_of_pos hstart.1]
    exact Nat.zero_lt_succ _
  inside := by
    intro text token htoken
    obtain ⟨i, hi, rfl⟩ := List.mem_map.mp htoken
    have hlt := List.mem_range.mp (List.mem_filter.mp hi).1
    have hle := (List.takeWhile_sublist notSpace (l := text.drop i)).length_le
    rw [List.length_drop] at hle
    exact Nat.add_le_of_le_sub' (Nat.le_of_lt hlt) hle
  lowercased units := String.ofList (units.map fun unit => Char.ofNat unit.toNat)

/-- Three emoji, a space and a word: six characters and nine code units. The word is lost. -/
theorem words_lost :
    ∃ (tagger : LinguisticTagger) (message : Message),
      words tagger message ≠ allWords tagger message ∧ ¬ RangeCovers message := by
  let message : Message :=
    ['😀', '😀', '😀', ' ', 'o', 'k'].map fun scalar => ⟨[scalar], List.cons_ne_nil _ _⟩
  have hlost : (words spaceTagger message).length ≠ (allWords spaceTagger message).length := by
    decide
  refine ⟨spaceTagger, message, fun hsame => hlost (congrArg List.length hsame), ?_⟩
  unfold RangeCovers
  decide

end AiGramLib.BotProcessor
