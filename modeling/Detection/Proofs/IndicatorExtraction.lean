import Detection.Proofs.IndicatorQueries
import Detection.Proofs.LeafOrder
import Detection.Proofs.PatternLanguages

/-!
# Extracted indicators

Indicators are searched for in free text, kind after kind, and the text is changed between the
searches. What a search finds is nevertheless a text of the language of its pattern, and what is
done to it afterwards keeps within the form of its kind: numeric addresses have four numbers below
256 as decimal numbers are written, hashes have a fixed number of digits in lower case, and domain
names do not end like file names.

No pattern takes white space or a quote. So the value of an indicator can be put between the quotes
of a query as it is, and a reader of the query finds the closing quote behind it.
-/
namespace Detection

open Text Pattern

variable {text digits : List Char} {c : Char} {value : String} {kind : IndicatorKind}

/-! ## Decimal numbers -/

theorem digitChar_of_isDigit (decimal : c.isDigit = true) :
    c.toNat - '0'.toNat < 10 ∧ (c.toNat - '0'.toNat).digitChar = c := by
  have codes : ∀ c : Char, c.toNat < 128 → c.isDigit = true →
      c.toNat - '0'.toNat < 10 ∧ (c.toNat - '0'.toNat).digitChar = c :=
    forall_ascii (by decide)
  exact codes c (ascii_of_isAlphanum (by simp [Char.isAlphanum, decimal])) decimal

/-- Digits behind a number make a number with all these digits. -/
theorem toDigits_ofDigitChars (decimal : ∀ c ∈ digits, c.isDigit = true) {number : Nat}
    (positive : 0 < number) :
    Nat.toDigits 10 (Nat.ofDigitChars 10 digits number) = Nat.toDigits 10 number ++ digits := by
  induction digits generalizing number with
  | nil => simp
  | cons c rest ih =>
    obtain ⟨own, others⟩ := List.forall_mem_cons.mp decimal
    obtain ⟨small, written⟩ := digitChar_of_isDigit own
    have next : Nat.toDigits 10 (10 * number + (c.toNat - '0'.toNat)) =
        Nat.toDigits 10 number ++ [c] := by
      rw [← Nat.toDigits_append_toDigits (by decide) positive small,
        Nat.toDigits_of_lt_base small, written]
    rw [Nat.ofDigitChars_cons, ih others (by omega), next, List.append_assoc,
      List.singleton_append]

/-- Digits without a leading zero are what is written for their number. -/
theorem repr_ofDigitChars (decimal : ∀ c ∈ digits, c.isDigit = true) (visible : digits ≠ [])
    (lead : digits.length = 1 ∨ digits.head? ≠ some '0') :
    (Nat.ofDigitChars 10 digits 0).repr = String.ofList digits := by
  obtain ⟨first, rest, rfl⟩ := List.exists_cons_of_ne_nil visible
  obtain ⟨own, others⟩ := List.forall_mem_cons.mp decimal
  obtain ⟨small, written⟩ := digitChar_of_isDigit own
  have alone : Nat.toDigits 10 (first.toNat - '0'.toNat) = [first] := by
    rw [Nat.toDigits_of_lt_base small, written]
  rw [Nat.repr_eq_ofList_toDigits, Nat.ofDigitChars_cons, Nat.mul_zero, Nat.zero_add]
  rcases lead with single | other
  · obtain rfl : rest = [] := by simpa using single
    rw [Nat.ofDigitChars_nil, alone]
  · have positive : 0 < first.toNat - '0'.toNat := by
      by_contra zero
      obtain rfl : first = '0' := by
        rw [← written, Nat.eq_zero_of_not_pos zero]
        rfl
      simp at other
    rw [toDigits_ofDigitChars others positive, alone, List.singleton_append]

/-! ## Numeric addresses -/

namespace Indicator

/-- The digits of a part of an address, where they are valid. -/
theorem repr_of_isOctet (decimal : ∀ c ∈ digits, c.isDigit = true) (valid : isOctet digits = true) :
    Nat.ofDigitChars 10 digits 0 ≤ 255 ∧
      (Nat.ofDigitChars 10 digits 0).repr = String.ofList digits := by
  have value : digits.foldl (fun number digit => number * 10 + (digit.toNat - '0'.toNat)) 0 =
      Nat.ofDigitChars 10 digits 0 := by
    simp only [Nat.ofDigitChars_eq_foldl, Nat.mul_comm]
  simp only [isOctet, value, Bool.and_eq_true, Bool.or_eq_true, beq_iff_eq, bne_iff_ne,
    decide_eq_true_eq, Bool.not_eq_true', List.isEmpty_eq_false_iff] at valid
  obtain ⟨⟨lead, visible⟩, small⟩ := valid
  exact ⟨small, repr_ofDigitChars decimal visible lead⟩

theorem isDigit_of_mem_octet (member : digits ∈ octet.language) :
    ∀ c ∈ digits, c.isDigit = true := by
  intro c inside
  have taken := takes_of_mem_language member c inside
  simpa [octet, takes, takes_atMost] using taken

/-- A text with a dot behind it. -/
theorem exists_of_mem_dotted {body : Pattern}
    (member : text ∈ (both body (.char '.')).language) :
    ∃ front ∈ body.language, text = front ++ ['.'] := by
  obtain ⟨front, own, _, ⟨c, dot, rfl⟩, rfl⟩ := member
  obtain rfl : c = '.' := by simpa using dot
  exact ⟨front, own, rfl⟩

/-- A text of the pattern for addresses has four stretches of digits with dots between them. -/
theorem exists_stretches (member : text ∈ quadPattern.language) :
    ∃ stretches : List (List Char), stretches.length = 4 ∧
      (∀ digits ∈ stretches, ∀ c ∈ digits, c.isDigit = true) ∧
      text = ['.'].intercalate stretches := by
  obtain ⟨_, rfl, _, ⟨_, front, _, ⟨last, lastDigits, _, rfl, rfl⟩, rfl⟩, rfl⟩ := member
  obtain ⟨_, inFirst, _, ⟨_, inSecond, _, inThird, rfl⟩, rfl⟩ := front
  obtain ⟨first, firstDigits, rfl⟩ := exists_of_mem_dotted inFirst
  obtain ⟨second, secondDigits, rfl⟩ := exists_of_mem_dotted inSecond
  obtain ⟨third, thirdDigits, rfl⟩ := exists_of_mem_dotted inThird
  refine ⟨[first, second, third, last], rfl, ?_, by simp⟩
  intro digits listed
  simp only [List.mem_cons, List.not_mem_nil, or_false] at listed
  rcases listed with rfl | rfl | rfl | rfl <;> exact isDigit_of_mem_octet ‹_›

/-- An address has four numbers below 256, written without leading zeros. -/
theorem exists_octets (member : text ∈ quadPattern.language) (valid : isAddress text = true) :
    ∃ octets : List Nat, octets.length = 4 ∧ (∀ octet ∈ octets, octet ≤ 255) ∧
      String.ofList text = join "." (octets.map Nat.repr) := by
  obtain ⟨stretches, four, decimal, rfl⟩ := exists_stretches member
  have dotless : ∀ digits ∈ stretches, '.' ∉ digits := by
    intro digits listed inside
    exact absurd (decimal digits listed '.' inside) (by decide)
  have some : stretches ≠ [] := List.ne_nil_of_length_eq_add_one four
  rw [isAddress, splitFrom_eq_splitOn, List.splitOn_intercalate '.' dotless some,
    List.all_eq_true] at valid
  refine ⟨stretches.map (Nat.ofDigitChars 10 · 0), by rw [List.length_map, four], ?_, ?_⟩
  · rw [List.forall_mem_map]
    intro digits listed
    exact (repr_of_isOctet (decimal digits listed) (valid digits listed)).1
  · have written : (stretches.map (Nat.ofDigitChars 10 · 0)).map Nat.repr =
        stretches.map String.ofList := by
      rw [List.map_map]
      refine List.map_congr_left fun digits listed => ?_
      exact (repr_of_isOctet (decimal digits listed) (valid digits listed)).2
    rw [written, join_eq_intercalate, ← String.toList_inj, String.toList_intercalate]
    simp [Function.comp_def]

/-! ## Names in lower case -/

/-- Lower-case letters, digits and some marks. -/
def isLowerName (marks : List Char) (c : Char) : Bool :=
  c.isLower || c.isDigit || marks.contains c

def domainMarks : List Char := ['-', '.']

def mailMarks : List Char := ['.', '_', '%', '+', '-', '@']

theorem toList_lowered (text : List Char) : (lowered text).toList = text.map lowerChar := by
  simp [lowered, lower]

theorem lowerChar_word (word : c.isAlphanum = true) :
    ((lowerChar c).isLower || (lowerChar c).isDigit) = true := by
  have codes : ∀ c : Char, c.toNat < 128 → c.isAlphanum = true →
      ((lowerChar c).isLower || (lowerChar c).isDigit) = true :=
    forall_ascii (by decide)
  exact codes c (ascii_of_isAlphanum word) word

section Lowered

variable {marks : List Char} (fixed : ∀ c ∈ marks, lowerChar c = c)
  (own : ∀ c ∈ text, c.isAlphanum = true ∨ c ∈ marks)
include fixed own

theorem isLowerName_of_mem_lowered : ∀ c ∈ (lowered text).toList, isLowerName marks c = true := by
  rw [toList_lowered, List.forall_mem_map]
  intro c inside
  rcases own c inside with word | mark
  · rw [isLowerName, lowerChar_word word, Bool.true_or]
  · rw [fixed c mark, isLowerName, List.contains_iff_mem.mpr mark, Bool.or_true]

/-- A mark that is in a name in lower case was there before. -/
theorem mem_of_mem_lowered {mark : Char} (plain : (mark.isLower || mark.isDigit) = false)
    (inside : mark ∈ (lowered text).toList) : mark ∈ text := by
  rw [toList_lowered] at inside
  obtain ⟨c, member, rfl⟩ := List.mem_map.mp inside
  rcases own c member with word | listed
  · rw [lowerChar_word word] at plain
    contradiction
  · rwa [fixed c listed]

end Lowered

theorem takes_topLevel (c : Char) : topLevel.takes c = c.isAlpha := by
  simp [topLevel, seq, times, takes, takes_atMost]

theorem isAlphanum_of_isAlpha (letter : c.isAlpha = true) : c.isAlphanum = true := by
  rw [Char.isAlphanum, letter, Bool.true_or]

theorem takes_domainPattern (taken : domainPattern.takes c = true) :
    c.isAlphanum = true ∨ c ∈ domainMarks := by
  have classes : ((c.isAlphanum = true ∨ (c.isAlphanum = true ∨ c = '-') ∨ c.isAlphanum = true) ∨
      c = '.') ∨ c.isAlpha = true := by
    simpa [domainPattern, label, Pattern.seq, Pattern.many1, Pattern.optional, Pattern.char,
      Pattern.takes, Pattern.takes_atMost, takes_topLevel] using taken
  have letter := @isAlphanum_of_isAlpha c
  simp only [domainMarks, List.mem_cons]
  tauto

theorem takes_emailPattern (taken : emailPattern.takes c = true) :
    c.isAlphanum = true ∨ c ∈ mailMarks := by
  have classes : (c.isAlphanum = true ∨ c ∈ ['.', '_', '%', '+', '-']) ∨ c = '@' ∨
      ((c.isAlphanum = true ∨ c = '-') ∨ c = '.') ∨ c.isAlpha = true := by
    simpa [emailPattern, seq, many1, char, takes,
      takes_topLevel] using taken
  have letter := @isAlphanum_of_isAlpha c
  simp only [mailMarks, List.mem_cons] at classes ⊢
  tauto

/-- The digits of hashes in lower case. -/
def hashDigits : List Char := "0123456789abcdef".toList

theorem lowerChar_mem_hashDigits (digit : isHexDigit c = true) : lowerChar c ∈ hashDigits := by
  have codes : ∀ c : Char, c.toNat < 128 → isHexDigit c = true → lowerChar c ∈ hashDigits :=
    forall_ascii (by decide)
  refine codes c ?_ digit
  simp only [isHexDigit, Char.isDigit, Bool.or_eq_true, Bool.and_eq_true, decide_eq_true_eq,
    ge_iff_le, Char.le_def, UInt32.le_iff_toNat_le, Char.reduceVal, UInt32.reduceToNat,
    Char.toNat_val] at digit
  omega

end Indicator

/-! ## The values of each kind -/

/-- A hash of a given length. -/
def IsHash (length : Nat) (value : String) : Prop :=
  value.length = length ∧ ∀ c ∈ value.toList, c ∈ Indicator.hashDigits

/-- What the values of a kind look like. -/
def IndicatorKind.IsValue : IndicatorKind → String → Prop
  | ip, value =>
    ∃ octets : List Nat, octets.length = 4 ∧ (∀ octet ∈ octets, octet ≤ 255) ∧
      value = join "." (octets.map Nat.repr)
  | domain, value =>
    (∀ c ∈ value.toList, Indicator.isLowerName Indicator.domainMarks c = true) ∧
      ∃ front label, value = front ++ "." ++ label ∧ '.' ∉ label.toList ∧
        label ∉ Indicator.fileEndings
  | url, value =>
    ∃ scheme rest, value = scheme ++ "://" ++ rest ∧
      (equalFold scheme "http" = true ∨ equalFold scheme "https" = true)
  | email, value =>
    (∀ c ∈ value.toList, Indicator.isLowerName Indicator.mailMarks c = true) ∧
      ∃ user host, value = user ++ "@" ++ host ∧ user ≠ "" ∧ '@' ∉ user.toList ∧
        '@' ∉ host.toList ∧ '.' ∈ host.toList
  | md5, value => IsHash 32 value
  | sha1, value => IsHash 40 value
  | sha256, value => IsHash 64 value

namespace Indicator

/-- What follows the last dot of a name has no dot in it. -/
theorem exists_lastLabel {name : List Char} (dotted : '.' ∈ name) :
    ∃ front, name = front ++ '.' :: (lastLabel name).toList ∧ '.' ∉ (lastLabel name).toList := by
  obtain ⟨label, front, whole, dotless⟩ :=
    List.eq_append_cons_of_mem (List.mem_reverse.mpr dotted)
  have last : (lastLabel name).toList = label.reverse := by
    have others : ∀ c ∈ label, (c != '.') = true := by
      intro c inside
      rw [bne_iff_ne]
      rintro rfl
      exact dotless inside
    rw [lastLabel, String.toList_ofList, whole, List.takeWhile_append_of_pos others]
    simp
  refine ⟨front.reverse, ?_, ?_⟩
  · rw [last, ← List.reverse_reverse name, whole]
    simp
  · rw [last, List.mem_reverse]
    exact dotless

/-- Names with a dot behind each have a dot. -/
theorem dot_mem_of_mem_many1 {body : Pattern}
    (member : text ∈ (many1 (.both body (.char '.'))).language) : '.' ∈ text := by
  obtain ⟨_, first, rest, _, rfl⟩ := member
  obtain ⟨front, _, rfl⟩ := exists_of_mem_dotted first
  simp

/-- A domain name that does not end like a file name. -/
theorem isValue_domain {name : List Char} (member : name ∈ domainPattern.language)
    (proper : lower (lastLabel name) ∉ fileEndings) :
    IndicatorKind.domain.IsValue (lowered name) := by
  have own : ∀ c ∈ name, c.isAlphanum = true ∨ c ∈ domainMarks := fun c inside =>
    takes_domainPattern (takes_of_mem_language member c inside)
  have fixed : ∀ c ∈ domainMarks, lowerChar c = c := all_decide_iff.mp (by decide)
  refine ⟨isLowerName_of_mem_lowered fixed own, ?_⟩
  have dotted : '.' ∈ name := by
    obtain ⟨_, rfl, _, ⟨names, several, top, _, rfl⟩, rfl⟩ := member
    exact List.mem_append_left top (dot_mem_of_mem_many1 several)
  obtain ⟨front, whole, dotless⟩ := exists_lastLabel dotted
  refine ⟨lowered front, lower (lastLabel name), ?_, ?_, proper⟩
  · rw [← String.toList_inj, String.toList_append, String.toList_append, toList_lowered,
      toList_lowered]
    conv_lhs => rw [whole]
    simp [lower, fixed '.' (by decide)]
  · have within : ∀ c ∈ (lastLabel name).toList, c.isAlphanum = true ∨ c ∈ domainMarks := by
      intro c inside
      apply own
      rw [whole]
      exact List.mem_append_right front (List.mem_cons_of_mem _ inside)
    have same : lower (lastLabel name) = lowered (lastLabel name).toList := by
      rw [lowered, String.ofList_toList]
    rw [same]
    exact fun inside => dotless (mem_of_mem_lowered fixed within (by decide) inside)

/-- Punctuation is dropped from behind the last character of another kind. -/
theorem withoutPunctuation_append (front rest : List Char)
    (other : ".,;:)]\x7d".toList.contains c = false) :
    withoutPunctuation (front ++ c :: rest) = front ++ c :: withoutPunctuation rest := by
  rw [withoutPunctuation, withoutPunctuation, List.reverse_append, List.reverse_cons,
    List.append_assoc, List.singleton_append, List.dropWhile_append, List.dropWhile_cons, other]
  split
  · next none =>
    rw [List.isEmpty_iff.mp none]
    simp
  · simp

theorem mem_of_mem_withoutPunctuation (inside : c ∈ withoutPunctuation text) : c ∈ text :=
  List.mem_reverse.mp ((List.dropWhile_sublist _).subset (List.mem_reverse.mp inside))

/-- A web address, without the punctuation behind it. -/
theorem isValue_url (member : text ∈ urlPattern.language) :
    IndicatorKind.url.IsValue (String.ofList (withoutPunctuation text)) := by
  obtain ⟨_, rfl, _, ⟨name, plain, _, ⟨ending, either, _, ⟨_, slashes, rest, _, rfl⟩, rfl⟩, rfl⟩,
    rfl⟩ := member
  obtain rfl := mem_language_literal.mp slashes
  refine ⟨String.ofList (name ++ ending), String.ofList (withoutPunctuation rest), ?_, ?_⟩
  · have cut : withoutPunctuation ((name ++ ending ++ [':', '/']) ++ '/' :: rest) =
        (name ++ ending ++ [':', '/']) ++ '/' :: withoutPunctuation rest :=
      withoutPunctuation_append _ _ (by decide)
    rw [← String.toList_inj]
    simpa using cut
  · have known := mem_language_anyCase.mp plain
    rcases either with secure | rfl
    · right
      have letter := mem_language_anyCase.mp secure
      simp [equalFold, known, letter]
    · left
      simp [equalFold, known]

/-- A mail address has a user and a host. -/
theorem exists_user (member : text ∈ emailPattern.language) :
    ∃ user host, text = user ++ '@' :: host ∧ user ≠ [] ∧ '@' ∉ user ∧ '@' ∉ host ∧
      '.' ∈ host := by
  obtain ⟨_, rfl, _, ⟨user, inUser, _, ⟨_, ⟨c, mark, rfl⟩, host, inHost, rfl⟩, rfl⟩, rfl⟩ := member
  obtain rfl : c = '@' := by simpa using mark
  refine ⟨user, host, rfl, ?_, ?_, ?_, ?_⟩
  · obtain ⟨_, ⟨first, _, rfl⟩, rest, _, rfl⟩ := inUser
    exact List.cons_ne_nil first rest
  · intro inside
    exact absurd (takes_of_mem_language inUser '@' inside) (by decide)
  · intro inside
    exact absurd (takes_of_mem_language inHost '@' inside) (by decide)
  · obtain ⟨names, several, top, _, rfl⟩ := inHost
    exact List.mem_append_left top (dot_mem_of_mem_many1 several)

theorem isValue_email (member : text ∈ emailPattern.language) :
    IndicatorKind.email.IsValue (lowered text) := by
  have own : ∀ c ∈ text, c.isAlphanum = true ∨ c ∈ mailMarks := fun c inside =>
    takes_emailPattern (takes_of_mem_language member c inside)
  have fixed : ∀ c ∈ mailMarks, lowerChar c = c := all_decide_iff.mp (by decide)
  refine ⟨isLowerName_of_mem_lowered fixed own, ?_⟩
  obtain ⟨user, host, rfl, visible, userFree, hostFree, dotted⟩ := exists_user member
  obtain ⟨userOwn, hostOwn⟩ := List.forall_mem_append.mp own
  refine ⟨lowered user, lowered host, ?_, ?_, ?_, ?_, ?_⟩
  · rw [← String.toList_inj]
    simp [toList_lowered, fixed '@' (by decide)]
  · rw [ne_eq, ← String.toList_eq_nil_iff, toList_lowered, List.map_eq_nil_iff]
    exact visible
  · exact fun inside => userFree (mem_of_mem_lowered fixed userOwn (by decide) inside)
  · have within : ∀ c ∈ host, c.isAlphanum = true ∨ c ∈ mailMarks := fun c inside =>
      hostOwn c (List.mem_cons_of_mem _ inside)
    exact fun inside => hostFree (mem_of_mem_lowered fixed within (by decide) inside)
  · rw [toList_lowered]
    exact List.mem_map.mpr ⟨'.', dotted, fixed '.' (by decide)⟩

theorem isHash_lowered {length : Nat} (member : text ∈ (hashPattern length).language) :
    IsHash length (lowered text) := by
  obtain ⟨_, rfl, _, ⟨digits, several, _, rfl, rfl⟩, rfl⟩ := member
  obtain ⟨count, each⟩ := mem_language_times.mp several
  constructor
  · rw [← String.length_toList, toList_lowered]
    simpa using count
  · rw [toList_lowered, List.forall_mem_map]
    intro c inside
    exact lowerChar_mem_hashDigits (each c (by simpa using inside))

/-! ## Quotes -/

/-- White space and the marks that end a web address, the quotes of queries among them. -/
def excluded : List Char := " \t\n\x0c\r'\"`<>".toList

/-- A text of a class that leaves these characters out has none of them. -/
theorem not_mem_of_refused {accepts : Char → Bool} (refused : excluded.any accepts = false)
    (each : ∀ c ∈ text, accepts c = true) : ∀ c ∈ excluded, c ∉ text := by
  intro c listed inside
  exact List.any_eq_false.mp refused c listed (each c inside)

end Indicator

namespace IndicatorForm

/-- Read the value that is compared with a field, up to the closing quote, and what follows. -/
def readValue? (form : IndicatorForm) (field : String) (text : List Char) :
    Option (List Char × List Char) :=
  (dropLeading? (field ++ form.sign ++ form.quote).toList text).bind (cutPiece? form.quote.toList)

/-- The two platforms have quotes of one character, and no value has it. -/
theorem exists_quote : ∀ form ∈ [crowdStrikeIndicators, qualysIndicators],
    ∃ quote ∈ Indicator.excluded, form.quote.toList = [quote] := by
  intro form listed
  rcases List.mem_pair.mp listed with rfl | rfl
  · exact ⟨'"', by decide, by decide⟩
  · exact ⟨'\x60', by decide, by decide⟩

/-- A text is cut at its first quote. -/
theorem cutPiece_quote {quote : Char} {value : List Char} (free : quote ∉ value)
    (rest : List Char) : cutPiece? [quote] (value ++ quote :: rest) = some (value, rest) := by
  induction value with
  | nil => simp [cutPiece?, List.isPrefixOf?]
  | cons c others ih =>
    obtain ⟨other, behind⟩ := not_or.mp (mt List.mem_cons.mpr free)
    have apart : (quote == c) = false := beq_eq_false_iff_ne.mpr other
    simp [cutPiece?, List.isPrefixOf?, apart, ih behind]

/-- A value without the quote of a form is read back from a comparison, whatever follows. -/
theorem readValue_comparison {form : IndicatorForm} {quote : Char}
    (single : form.quote.toList = [quote]) (fields : List (IndicatorKind × List String))
    (field : String) (free : quote ∉ value.toList) (rest : List Char) :
    form.readValue? field
        ((IndicatorSearch.comparison ⟨form, fields⟩ field value).toList ++ rest) =
      some (value.toList, rest) := by
  have written : (IndicatorSearch.comparison ⟨form, fields⟩ field value).toList ++ rest =
      (field ++ form.sign ++ form.quote).toList ++ (value.toList ++ quote :: rest) := by
    simp [IndicatorSearch.comparison, single]
  have dropped : dropLeading? (field ++ form.sign ++ form.quote).toList
      ((IndicatorSearch.comparison ⟨form, fields⟩ field value).toList ++ rest) =
        some (value.toList ++ quote :: rest) := by
    rw [dropLeading?, List.isPrefixOf?_eq_some_iff_append_eq]
    exact written.symm
  rw [readValue?, dropped, Option.bind_some, single, cutPiece_quote free]

end IndicatorForm

/-! ## What is found -/

namespace Indicator

/-- The values of a kind that are found in a text, with repetitions. -/
def found (text : String) (kind : IndicatorKind) : List String :=
  let clear := unmask text.toList
  let beyondUrls := blankOut urlPattern clear
  let beyondMail := blankOut emailPattern beyondUrls
  let names := blankOut quadPattern beyondMail
  match kind with
  | .ip => ((quadPattern.findAll beyondMail).filter isAddress).map String.ofList
  | .domain =>
    ((domainPattern.findAll names).filter fun name =>
      !fileEndings.contains (lower (lastLabel name))).map lowered
  | .url => (urlPattern.findAll clear).map fun url => String.ofList (withoutPunctuation url)
  | .email => (emailPattern.findAll beyondUrls).map lowered
  | .md5 => ((hashPattern 32).findAll names).map lowered
  | .sha1 => ((hashPattern 40).findAll names).map lowered
  | .sha256 => ((hashPattern 64).findAll names).map lowered

theorem extract_eq (text : String) :
    extract text = IndicatorKind.all.flatMap fun kind => ofKind kind (found text kind) := by
  simp [extract, found, IndicatorKind.all]

theorem mem_ofKind {values : List String} {indicator : Indicator} :
    indicator ∈ ofKind kind values ↔ indicator.kind = kind ∧ indicator.value ∈ values := by
  obtain ⟨own, value⟩ := indicator
  simp [ofKind, eq_comm, and_comm]

theorem isValue_of_mem_found {text : String} (member : value ∈ found text kind) :
    kind.IsValue value := by
  cases kind with
  | ip =>
    obtain ⟨address, listed, rfl⟩ := List.mem_map.mp member
    obtain ⟨hit, valid⟩ := List.mem_filter.mp listed
    exact exists_octets (mem_language_of_mem_findAll hit) valid
  | domain =>
    obtain ⟨name, listed, rfl⟩ := List.mem_map.mp member
    obtain ⟨hit, proper⟩ := List.mem_filter.mp listed
    exact isValue_domain (mem_language_of_mem_findAll hit) (by simpa using proper)
  | url =>
    obtain ⟨url, hit, rfl⟩ := List.mem_map.mp member
    exact isValue_url (mem_language_of_mem_findAll hit)
  | email =>
    obtain ⟨address, hit, rfl⟩ := List.mem_map.mp member
    exact isValue_email (mem_language_of_mem_findAll hit)
  | md5 | sha1 | sha256 =>
    obtain ⟨digits, hit, rfl⟩ := List.mem_map.mp member
    exact isHash_lowered (mem_language_of_mem_findAll hit)

/-- Nothing that is found has white space or a quote in it. -/
theorem not_excluded_of_mem_found {text : String} (member : value ∈ found text kind) :
    ∀ c ∈ excluded, c ∉ value.toList := by
  have form := isValue_of_mem_found member
  cases kind with
  | ip =>
    obtain ⟨address, own, rfl⟩ := List.mem_map.mp member
    have hit := mem_language_of_mem_findAll (List.mem_filter.mp own).1
    rw [String.toList_ofList]
    exact not_mem_of_refused (by decide) (takes_of_mem_language hit)
  | domain => exact not_mem_of_refused (by decide) form.1
  | url =>
    obtain ⟨url, own, rfl⟩ := List.mem_map.mp member
    have hit := mem_language_of_mem_findAll own
    rw [String.toList_ofList]
    intro c listed inside
    exact not_mem_of_refused (by decide) (takes_of_mem_language hit) c listed
      (mem_of_mem_withoutPunctuation inside)
  | email => exact not_mem_of_refused (by decide) form.1
  | md5 | sha1 | sha256 =>
    have each : ∀ c ∈ value.toList, hashDigits.contains c = true := fun c inside =>
      List.contains_iff_mem.mpr (form.2 c inside)
    exact not_mem_of_refused (by decide) each

theorem nodup_extract (text : String) : (extract text).Nodup := by
  rw [extract_eq, List.nodup_flatMap]
  constructor
  · intro kind _
    have distinct := (FirstUses.eraseDups (found text kind)).nodup
    refine distinct.map fun one other same => ?_
    exact congrArg value same
  · refine IndicatorKind.nodup_all.imp fun {earlier later} apart indicator first second => ?_
    exact apart ((mem_ofKind.mp first).1.symm.trans (mem_ofKind.mp second).1)

/-- Extraction gives distinct indicators in the order of their kinds, for every text. Each has a
value of its kind, and in no value is there white space, a quote or an angle bracket. So the value
is read back from a comparison of CrowdStrike or Qualys, whatever follows it: it does not close the
quotes around it. -/
theorem extract_wellFormed (text : String) :
    (extract text).Nodup ∧ IndicatorSearch.Ordered (extract text) ∧
    ∀ indicator ∈ extract text,
      indicator.kind.IsValue indicator.value ∧
      (∀ c ∈ excluded, c ∉ indicator.value.toList) ∧
      ∀ form ∈ [crowdStrikeIndicators, qualysIndicators], ∀ fields field rest,
        form.readValue? field
            ((IndicatorSearch.comparison ⟨form, fields⟩ field indicator.value).toList ++ rest) =
          some (indicator.value.toList, rest) := by
  refine ⟨nodup_extract text, ?_, ?_⟩
  · rw [extract_eq]
    exact IndicatorSearch.ordered_flatMap fun kind indicator member => (mem_ofKind.mp member).1
  · intro indicator member
    rw [extract_eq, List.mem_flatMap] at member
    obtain ⟨kind, _, listed⟩ := member
    obtain ⟨rfl, own⟩ := mem_ofKind.mp listed
    have free := not_excluded_of_mem_found own
    refine ⟨isValue_of_mem_found own, free, fun form template fields field rest => ?_⟩
    obtain ⟨quote, outside, single⟩ := IndicatorForm.exists_quote form template
    exact IndicatorForm.readValue_comparison single fields field (free quote outside) rest

-- Disguised indicators, a file name, and four numbers that are no address.
example :
    extract "cmd.exe: hxxp://a[.]io/x.js), Me[at]b.io, C2.io; 10.0.0[.]1, not 10.0.0.01" =
    [⟨.ip, "10.0.0.1"⟩, ⟨.domain, "c2.io"⟩, ⟨.url, "http://a.io/x.js"⟩, ⟨.email, "me@b.io"⟩] := by
  decide +kernel

end Indicator

end Detection
