import BoringPanel.Lib.Regexp
import BoringPanel.QueryService.QueryBuilderToExpr

/-!
# Time layouts as regular expressions

`RegexForStrptimeLayout` writes a regular expression for the texts of a layout of `strptime`: the special
characters are escaped, for an expression that stands in a string literal, and then each directive is
replaced by the expression of a table. `getOperators` puts what is returned between double quotes.

What the directives stand for is documented in the table, as texts of an instant (`directiveText`). Some
expressions match fewer texts: the day that is padded with a blank, say, is looked for behind an underscore.
A double quote or the end of a line in the layout ends the literal, and a backslash is escaped for the literal
only and not for the expression. `matchesLiteral_of_covered` says which texts the guard lets through.
-/

namespace QueryService.LogParsingPipeline

open ExprText (lineEnds)

/-! ### The function -/

/-- `ctimeRegex`, by the character behind the percent sign. -/
def ctimeRegex : List (Char × String) :=
  [('Y', "[0-9]{4}"), ('y', "[0-9]{2}"), ('m', "[0-9]{2}"), ('o', "_[0-9]"), ('q', "[0-9]"),
    ('b', "[a-zA-Z]*?"), ('h', "[a-zA-Z]*?"), ('B', "[a-zA-Z]*?"), ('d', "[0-9]{2}"), ('e', "_[0-9]"),
    ('g', "[0-9]"), ('a', "[a-zA-Z]*?"), ('A', "[a-zA-Z]*?"), ('H', "[0-9]{2}"), ('l', "[0-9]{1-2}"),
    ('I', "[0-9]{2}"), ('p', "(AM|PM)"), ('P', "(am|pm)"), ('M', "[0-9]{2}"), ('S', "[0-9]{2}"),
    ('L', "[0-9]*?"), ('f', "[0-9]*?"), ('s', "[0-9]*?"), ('Z', "[a-zA-Z]*?"), ('z', "[-+][0-9]*?"),
    ('w', "[-+][0-9]*?"), ('i', "[-+][0-9]*?"), ('j', "[-+][0-9]{2}:[0-9]{2}"),
    ('k', "[-+][0-9]{2}:[0-9]{2}:[0-9]{2}"), ('D', "[0-9]{2}/[0-9]{2}/[0-9]{4}"),
    ('x', "[0-9]{2}/[0-9]{2}/[0-9]{4}"), ('F', "[0-9]{4}-[0-9]{2}-[0-9]{2}"),
    ('T', "[0-9]{2}:[0-9]{2}:[0-9]{2}"), ('X', "[0-9]{2}:[0-9]{2}:[0-9]{2}"),
    ('r', "[0-9]{2}:[0-9]{2}:[0-9]{2} (am|pm)"), ('R', "[0-9]{2}:[0-9]{2}"), ('n', "\n"), ('t', "\t"),
    ('%', "%"), ('c', "[a-zA-Z]{3} [a-zA-Z]{3} [0-9]{2} [0-9]{2}:[0-9]{2}:[0-9]{2} [0-9]{4}")]

/-- The special characters, in the order in which they are escaped. -/
def regexSpecialChars : List Char :=
  ['.', '+', '*', '?', '^', '$', '(', ')', '[', ']', '{', '}', '|', '\\']

def escapeSpecialChars (layout : String) : String :=
  regexSpecialChars.foldl (fun layoutRegex c => Go.replaceAll layoutRegex c.toString ("\\" ++ c.toString)) layout

/-- The directives `%.` replaced, and those that are not in the table. -/
def replaceDirectives : List Char → List Char × List Char
  | '%' :: c :: s =>
    let rest := replaceDirectives s
    if c = '\n' then ('%' :: c :: rest.1, rest.2)
    else match ctimeRegex.lookup c with
      | some regex => (regex.toList ++ rest.1, rest.2)
      | none => (rest.1, c :: rest.2)
  | c :: s => (c :: (replaceDirectives s).1, (replaceDirectives s).2)
  | [] => ([], [])

/-- The text of an error for each of the directives. -/
def unsupported (directives : List Char) : String :=
  Go.join " " (directives.map fun c => "unsupported ctimefmt directive: %" ++ c.toString)

def regexForStrptimeLayout (layout : String) : Except String String :=
  let replaced := replaceDirectives (escapeSpecialChars layout).toList
  if replaced.2.length ≠ 0 then
    .error ("couldn't generate regex for ctime format: [" ++ unsupported replaced.2 ++ "]")
  else .ok (String.ofList replaced.1)

/-! ### Texts of an instant -/

/-- The offset of a zone; the seconds and their fraction are optional. -/
structure ZoneOffset where
  negative : Bool
  hours : Nat
  minutes : Nat
  seconds : Option (Nat × Option Nat)

/-- What the directives read of an instant. -/
structure Instant where
  year : Nat
  month : Nat
  day : Nat
  weekday : Fin 7
  hour : Nat
  minute : Nat
  second : Nat
  nanosecond : Nat
  zone : List Char
  offset : Option ZoneOffset
  year_le : year ≤ 9999
  month_pos : 1 ≤ month
  month_le : month ≤ 12
  day_le : day ≤ 31
  hour_le : hour ≤ 24
  minute_lt : minute < 60
  second_lt : second < 60
  nanosecond_lt : nanosecond < 10 ^ 9
  /-- The zone has an abbreviation, or none. -/
  zone_letters : ∀ c ∈ zone, c.isAlpha
  offset_lt : ∀ o ∈ offset, o.hours < 100 ∧ o.minutes < 60 ∧ ∀ s ∈ o.seconds, s.1 < 60 ∧ ∀ f ∈ s.2, f < 10 ^ 6

/-- A number that is padded on the left. -/
def pad (c : Char) (width n : Nat) : List Char := (Nat.toDigits 10 n).leftpad width c

def zeros : Nat → Nat → List Char := pad '0'

def monthNames : List String :=
  ["January", "February", "March", "April", "May", "June", "July", "August", "September", "October",
    "November", "December"]

def weekdayNames : List String :=
  ["Sunday", "Monday", "Tuesday", "Wednesday", "Thursday", "Friday", "Saturday"]

namespace Instant

variable (t : Instant)

def monthName : List Char := (monthNames.getD (t.month - 1) "").toList

def weekdayName : List Char := (weekdayNames.getD t.weekday "").toList

/-- The hour of a clock of twelve hours. -/
def hour12 : Nat := if t.hour % 12 = 0 then 12 else t.hour % 12

def isAfternoon : Bool := 12 ≤ t.hour % 24

/-- The time with two digits each. -/
def clock (hour : Nat) : List Char := zeros 2 hour ++ ':' :: (zeros 2 t.minute ++ ':' :: zeros 2 t.second)

def offsetText : List Char :=
  match t.offset with
  | none => []
  | some o => (if o.negative then '-' else '+') :: (zeros 2 o.hours ++ zeros 2 o.minutes ++
      match o.seconds with
      | none => []
      | some (s, none) => zeros 2 s
      | some (s, some f) => zeros 2 s ++ '.' :: zeros 6 f)

end Instant

/-- The text of a directive, as the table documents it; `none` for those without a comment. -/
def directiveText (t : Instant) : Char → Option (List Char)
  | 'Y' => some (zeros 4 t.year)
  | 'y' => some (zeros 2 (t.year % 100))
  | 'm' => some (zeros 2 t.month)
  | 'o' => some (pad ' ' 2 t.month)
  | 'q' => some (Nat.toDigits 10 t.month)
  | 'b' => some (t.monthName.take 3)
  | 'h' => some (t.monthName.take 3)
  | 'B' => some t.monthName
  | 'd' => some (zeros 2 t.day)
  | 'e' => some (pad ' ' 2 t.day)
  | 'g' => some (Nat.toDigits 10 t.day)
  | 'a' => some (t.weekdayName.take 3)
  | 'A' => some t.weekdayName
  | 'H' => some (zeros 2 t.hour)
  | 'l' => some (Nat.toDigits 10 t.hour12)
  | 'I' => some (zeros 2 t.hour12)
  | 'p' => some (if t.isAfternoon then "PM".toList else "AM".toList)
  | 'P' => some (if t.isAfternoon then "pm".toList else "am".toList)
  | 'M' => some (zeros 2 t.minute)
  | 'S' => some (zeros 2 t.second)
  | 'L' => some (zeros 3 (t.nanosecond / 10 ^ 6))
  | 'f' => some (zeros 6 (t.nanosecond / 10 ^ 3))
  | 's' => some (zeros 9 t.nanosecond)
  | 'Z' => some t.zone
  | 'z' => some t.offsetText
  | 'w' => some (Nat.toDigits 10 t.weekday)
  | 'D' => some (zeros 2 t.month ++ '/' :: (zeros 2 t.day ++ '/' :: zeros 2 (t.year % 100)))
  | 'x' => some (zeros 2 t.month ++ '/' :: (zeros 2 t.day ++ '/' :: zeros 2 (t.year % 100)))
  | 'F' => some (zeros 4 t.year ++ '-' :: (zeros 2 t.month ++ '-' :: zeros 2 t.day))
  | 'T' => some (t.clock t.hour)
  | 'X' => some (t.clock t.hour)
  | 'r' => some (t.clock t.hour12 ++ ' ' :: if t.isAfternoon then "pm".toList else "am".toList)
  | 'R' => some (zeros 2 t.hour ++ ':' :: zeros 2 t.minute)
  | 'n' => some ['\n']
  | 't' => some ['\t']
  | '%' => some ['%']
  | 'c' => some (t.weekdayName.take 3 ++ ' ' :: (t.monthName.take 3 ++ ' ' :: (zeros 2 t.day ++
      ' ' :: (t.clock t.hour ++ ' ' :: zeros 4 t.year))))
  | _ => none

/-- The text of a layout. -/
def formatLayout (t : Instant) : List Char → Option (List Char)
  | '%' :: c :: s =>
    if c = '\n' then (formatLayout t s).map fun w => '%' :: c :: w
    else (directiveText t c).bind fun text => (formatLayout t s).map fun w => text ++ w
  | c :: s => (formatLayout t s).map fun w => c :: w
  | [] => some []

/-! ### What is covered -/

/-- The instants whose text for a directive is matched by the expression of the table. -/
def coveredDirective (t : Instant) : Char → Bool
  | 'q' => t.month < 10
  | 'g' => t.day < 10
  | 'z' => t.offset.any fun o => o.seconds.all fun s => s.2.isNone
  | c => c ∉ ['o', 'e', 'l', 'w', 'D', 'x', 'n']

/-- The layout has only directives that cover the instant, and no double quote, backslash or end of a line. -/
def coveredLayout (t : Instant) : List Char → Bool
  | '%' :: c :: s => c ≠ '\n' && coveredDirective t c && coveredLayout t s
  | c :: s => c ∉ '"' :: '\\' :: lineEnds && coveredLayout t s
  | [] => true

/-- The layout has no double quote and no end of a line, not even as a directive. -/
def readableLayout : List Char → Bool
  | '%' :: c :: s => c ∉ 'n' :: lineEnds && readableLayout s
  | c :: s => c ∉ '"' :: lineEnds && readableLayout s
  | [] => true

/-- The condition `matches "regex"`: the literal is read on its line, and the pattern matches the text. -/
def MatchesLiteral [ExprText.EscapeSequences] (regex : String) (text : List Char) : Prop :=
  (∀ c ∈ lineEnds, c ∉ regex.toList) ∧
    ∃ pattern, ExprText.Reads '"' regex.toList pattern ∧ Regexp.matchString pattern text

/-! ### Escaped layouts -/

/-- What is put for a character of a layout. -/
def escapedChar (c : Char) : List Char :=
  if c = '\\' then ['\\', '\\'] else if c ∈ regexSpecialChars then ['\\', '\\', c] else [c]

theorem toList_toString (c : Char) : c.toString.toList = [c] := String.toList_singleton c

theorem foldl_replaceAll_escaped {chars : List Char} (hslash : '\\' ∉ chars) (hnodup : chars.Nodup) (s : String) :
    (chars.foldl (fun layoutRegex c => Go.replaceAll layoutRegex c.toString ("\\" ++ c.toString)) s).toList =
      s.toList.flatMap fun c => if c ∈ chars then ['\\', c] else [c] := by
  induction chars generalizing s with
  | nil =>
    rw [List.foldl_nil]
    exact (List.flatMap_singleton' s.toList).symm
  | cons d chars ih =>
    obtain ⟨hd, hslash⟩ := not_or.mp (List.mem_cons.not.mp hslash)
    obtain ⟨hmem, hnodup⟩ := List.nodup_cons.mp hnodup
    have hreplace : (Go.replaceAll s d.toString ("\\" ++ d.toString)).toList =
        s.toList.flatMap fun c => if c = d then ['\\', d] else [c] := by
      rw [Go.toList_replaceAll, String.toList_append, toList_toString]
      exact Substitution.replaceAll_singleton _ d s.toList
    rw [List.foldl_cons, ih hslash hnodup, hreplace, List.flatMap_assoc]
    refine congrArg (s.toList.flatMap ·) (funext fun c => ?_)
    by_cases hc : c = d
    · rw [if_pos hc, hc, if_pos List.mem_cons_self, List.flatMap_cons, List.flatMap_singleton, if_neg hslash,
        if_neg hmem]
      rfl
    · rw [if_neg hc, List.flatMap_singleton]
      exact if_congr (by rw [List.mem_cons, or_iff_right hc]) rfl rfl

theorem toList_escapeSpecialChars (layout : String) :
    (escapeSpecialChars layout).toList = layout.toList.flatMap escapedChar := by
  obtain ⟨chars, hchars, hslash, hnodup⟩ : ∃ chars, regexSpecialChars = chars ++ ['\\'] ∧
      '\\' ∉ chars ∧ chars.Nodup := ⟨regexSpecialChars.dropLast, rfl, by decide, by decide⟩
  rw [escapeSpecialChars, hchars, List.foldl_append, List.foldl_cons, List.foldl_nil, Go.toList_replaceAll,
    foldl_replaceAll_escaped hslash hnodup, String.toList_append, toList_toString]
  refine (Substitution.replaceAll_singleton _ '\\' _).trans ?_
  rw [List.flatMap_assoc]
  refine congrArg (layout.toList.flatMap ·) (funext fun c => ?_)
  rw [escapedChar, hchars]
  by_cases hc : c = '\\'
  · rw [if_pos hc, hc, if_neg hslash]
    rfl
  · rw [if_neg hc]
    by_cases hmem : c ∈ chars
    · rw [if_pos hmem, if_pos (List.mem_append_left _ hmem), List.flatMap_cons, List.flatMap_singleton, if_neg hc]
      rfl
    · have hnot : c ∉ chars ++ ['\\'] := fun h =>
        (List.mem_append.mp h).elim hmem fun h => hc (List.mem_singleton.mp h)
      rw [if_neg hmem, if_neg hnot, List.flatMap_singleton, if_neg hc]

/-! ### Directives -/

open Regexp

/-- The expression of a number of digits. -/
def digits (n : Nat) : List Char := "[0-9]".toList ++ ('{' :: (toString n).toList ++ ['}'])

def letters (n : Nat) : List Char := "[a-zA-Z]".toList ++ ('{' :: (toString n).toList ++ ['}'])

theorem atom_digit : Atom "[0-9]".toList (InClass [('0', '9')]) :=
  .ranges [('0', '9')] (by decide)

theorem atom_letter : Atom "[a-zA-Z]".toList (InClass [('a', 'z'), ('A', 'Z')]) :=
  .ranges [('a', 'z'), ('A', 'Z')] (by decide)

theorem atom_sign : Atom "[-+]".toList (InClass [('-', '-'), ('+', '+')]) :=
  .ranges [('-', '-'), ('+', '+')] (by decide)

theorem digit_range {c : Char} (h : c.isDigit) : InClass [('0', '9')] c :=
  ⟨_, List.mem_singleton_self _, by simpa [Char.isDigit, Char.le_def] using h⟩

theorem letter_range {c : Char} (h : c.isAlpha) : InClass [('a', 'z'), ('A', 'Z')] c := by
  rcases Bool.or_eq_true_iff.mp h with h | h
  · exact ⟨('A', 'Z'), by decide, by simpa [Char.isUpper, Char.le_def] using h⟩
  · exact ⟨('a', 'z'), by decide, by simpa [Char.isLower, Char.le_def] using h⟩

theorem covers_digits {u : List Char} (n : Nat) (hlength : u.length = n) (hu : ∀ c ∈ u, c.isDigit) :
    Covers (digits n) u := by
  subst hlength
  exact atom_digit.covers_count fun c hc => digit_range (hu c hc)

theorem covers_letters {u : List Char} (n : Nat) (hlength : u.length = n) (hu : ∀ c ∈ u, c.isAlpha) :
    Covers (letters n) u := by
  subst hlength
  exact atom_letter.covers_count fun c hc => letter_range (hu c hc)

theorem covers_anyDigits {u : List Char} (hu : ∀ c ∈ u, c.isDigit) : Covers "[0-9]*?".toList u :=
  atom_digit.covers_lazy fun c hc => digit_range (hu c hc)

theorem covers_anyLetters {u : List Char} (hu : ∀ c ∈ u, c.isAlpha) : Covers "[a-zA-Z]*?".toList u :=
  atom_letter.covers_lazy fun c hc => letter_range (hu c hc)

theorem covers_digit {n : Nat} (h : n < 10) : Covers "[0-9]".toList (Nat.toDigits 10 n) := by
  have hlength : (Nat.toDigits 10 n).length = 1 :=
    Nat.le_antisymm ((Nat.length_toDigits_le_iff (by decide) (by decide)).mpr h) Nat.length_toDigits_pos
  obtain ⟨c, hc⟩ := List.length_eq_one_iff.mp hlength
  rw [hc]
  exact atom_digit.covers (digit_range (Nat.isDigit_of_mem_toDigits (by decide) (by decide)
    (hc.symm ▸ List.mem_singleton_self c)))

theorem isDigit_of_mem_zeros {width n : Nat} {c : Char} (h : c ∈ zeros width n) : c.isDigit := by
  rcases List.mem_append.mp h with h | h
  · rw [(List.mem_replicate.mp h).2]
    rfl
  · exact Nat.isDigit_of_mem_toDigits (by decide) (by decide) h

theorem length_zeros {width n : Nat} (hwidth : 0 < width) (h : n < 10 ^ width) : (zeros width n).length = width := by
  rw [zeros, pad, List.length_leftpad]
  exact Nat.max_eq_left ((Nat.length_toDigits_le_iff (by decide) hwidth).mpr h)

theorem covers_zeros {width n : Nat} (hwidth : 0 < width) (h : n < 10 ^ width) :
    Covers (digits width) (zeros width n) :=
  covers_digits width (length_zeros hwidth h) fun _ => isDigit_of_mem_zeros

theorem covers_two {n : Nat} (h : n < 100) : Covers (digits 2) (zeros 2 n) := covers_zeros (by decide) h

/-- Half a day, in two letters. -/
theorem covers_half (am pm : List Char) (ham : isPlain am) (hpm : isPlain pm) (afternoon : Bool) :
    Covers ('(' :: am ++ '|' :: pm ++ [')']) (if afternoon then pm else am) :=
  covers_either ham hpm (by cases afternoon <;> simp)

theorem covers_upperHalf (afternoon : Bool) :
    Covers "(AM|PM)".toList (if afternoon then "PM".toList else "AM".toList) :=
  covers_half "AM".toList "PM".toList (by decide) (by decide) afternoon

theorem covers_lowerHalf (afternoon : Bool) :
    Covers "(am|pm)".toList (if afternoon then "pm".toList else "am".toList) :=
  covers_half "am".toList "pm".toList (by decide) (by decide) afternoon

namespace Instant

variable (t : Instant)

theorem hour12_le : t.hour12 ≤ 12 := by
  rw [hour12]
  split <;> omega

theorem month_lt : t.month < 100 := by have := t.month_le; omega

theorem day_lt : t.day < 100 := by have := t.day_le; omega

theorem hour_lt : t.hour < 100 := by have := t.hour_le; omega

theorem minute_lt' : t.minute < 100 := by have := t.minute_lt; omega

theorem second_lt' : t.second < 100 := by have := t.second_lt; omega

theorem hour12_lt : t.hour12 < 100 := by have := t.hour12_le; omega

theorem year_lt : t.year < 10 ^ 4 := Nat.lt_succ_of_le t.year_le

theorem covers_clock {hour : Nat} (h : hour < 100) :
    Covers (digits 2 ++ ':' :: (digits 2 ++ ':' :: digits 2)) (t.clock hour) := by
  exact (covers_two h).append (Covers.cons (by decide)
    ((covers_two t.minute_lt').append (Covers.cons (by decide) (covers_two t.second_lt'))))

theorem monthName_mem : t.monthName ∈ monthNames.map String.toList := by
  have hlt : t.month - 1 < monthNames.length := by
    have hpos := t.month_pos
    have hle := t.month_le
    change t.month - 1 < 12
    omega
  rw [monthName, List.getD_eq_getElem?_getD, List.getElem?_eq_getElem hlt, Option.getD_some]
  exact List.mem_map_of_mem (List.getElem_mem hlt)

theorem weekdayName_mem : t.weekdayName ∈ weekdayNames.map String.toList := by
  have hlt : (t.weekday : Nat) < weekdayNames.length := t.weekday.isLt
  rw [weekdayName, List.getD_eq_getElem?_getD, List.getElem?_eq_getElem hlt, Option.getD_some]
  exact List.mem_map_of_mem (List.getElem_mem hlt)

end Instant

theorem letters_of_mem_names {name : List Char}
    (h : name ∈ monthNames.map String.toList ∨ name ∈ weekdayNames.map String.toList) :
    (∀ c ∈ name, c.isAlpha) ∧ (∀ c ∈ name.take 3, c.isAlpha) ∧ (name.take 3).length = 3 := by
  have hnames : (monthNames ++ weekdayNames).all fun name =>
      name.toList.all Char.isAlpha && (name.toList.take 3).length == 3 := by decide
  rw [← List.mem_append, ← List.map_append] at h
  obtain ⟨name, hmem, rfl⟩ := List.mem_map.mp h
  obtain ⟨halpha, hlength⟩ := Bool.and_eq_true_iff.mp (List.all_eq_true.mp hnames name hmem)
  have hletters := List.all_eq_true.mp halpha
  exact ⟨hletters, fun c hc => hletters c (List.mem_of_mem_take hc), beq_iff_eq.mp hlength⟩

namespace Instant

variable (t : Instant)

theorem covers_date : Covers "[0-9]{4}-[0-9]{2}-[0-9]{2}".toList
    (zeros 4 t.year ++ '-' :: (zeros 2 t.month ++ '-' :: zeros 2 t.day)) := by
  have hregex : "[0-9]{4}-[0-9]{2}-[0-9]{2}".toList = digits 4 ++ '-' :: (digits 2 ++ '-' :: digits 2) := by
    decide
  rw [hregex]
  exact (covers_zeros (by decide) t.year_lt).append (Covers.cons (by decide)
    ((covers_two t.month_lt).append (Covers.cons (by decide) (covers_two t.day_lt))))

theorem covers_time12 : Covers "[0-9]{2}:[0-9]{2}:[0-9]{2} (am|pm)".toList
    (t.clock t.hour12 ++ ' ' :: if t.isAfternoon then "pm".toList else "am".toList) := by
  have hregex : "[0-9]{2}:[0-9]{2}:[0-9]{2} (am|pm)".toList =
      (digits 2 ++ ':' :: (digits 2 ++ ':' :: digits 2)) ++ ' ' :: "(am|pm)".toList := by decide
  rw [hregex]
  exact (t.covers_clock t.hour12_lt).append (Covers.cons (by decide) (covers_lowerHalf t.isAfternoon))

theorem covers_dateTime :
    Covers "[a-zA-Z]{3} [a-zA-Z]{3} [0-9]{2} [0-9]{2}:[0-9]{2}:[0-9]{2} [0-9]{4}".toList
      (t.weekdayName.take 3 ++ ' ' :: (t.monthName.take 3 ++ ' ' :: (zeros 2 t.day ++
        ' ' :: (t.clock t.hour ++ ' ' :: zeros 4 t.year)))) := by
  have hregex : "[a-zA-Z]{3} [a-zA-Z]{3} [0-9]{2} [0-9]{2}:[0-9]{2}:[0-9]{2} [0-9]{4}".toList =
      letters 3 ++ ' ' :: (letters 3 ++ ' ' :: (digits 2 ++
        ' ' :: ((digits 2 ++ ':' :: (digits 2 ++ ':' :: digits 2)) ++ ' ' :: digits 4))) := by decide +kernel
  have hweekday := letters_of_mem_names (.inr t.weekdayName_mem)
  have hmonth := letters_of_mem_names (.inl t.monthName_mem)
  have htime := (t.covers_clock t.hour_lt).append (Covers.cons (c := ' ') (by decide)
    (covers_zeros (by decide) t.year_lt))
  have hday := (covers_two t.day_lt).append (Covers.cons (c := ' ') (by decide) htime)
  rw [hregex]
  exact (covers_letters 3 hweekday.2.2 hweekday.2.1).append (Covers.cons (by decide)
    ((covers_letters 3 hmonth.2.2 hmonth.2.1).append (Covers.cons (by decide) hday)))

end Instant

theorem covers_offset {t : Instant} (h : coveredDirective t 'z') : Covers "[-+][0-9]*?".toList t.offsetText := by
  obtain ⟨o, ho, hsome⟩ : ∃ o, t.offset = some o ∧ o.seconds.all (fun s => s.2.isNone) = true := by
    cases ho : t.offset with
    | none =>
      rw [coveredDirective, ho] at h
      cases h
    | some o =>
      rw [coveredDirective, ho] at h
      exact ⟨o, rfl, h⟩
  rw [Instant.offsetText, ho]
  have hsign : InClass [('-', '-'), ('+', '+')] (if o.negative then '-' else '+') := by
    cases o.negative
    · exact ⟨('+', '+'), by decide, by decide⟩
    · exact ⟨('-', '-'), by decide, by decide⟩
  refine (atom_sign.covers hsign).append (q := "[0-9]*?".toList) (covers_anyDigits fun c hc => ?_)
  rcases List.mem_append.mp hc with hc | hc
  · exact (List.mem_append.mp hc).elim isDigit_of_mem_zeros isDigit_of_mem_zeros
  · match hseconds : o.seconds, hc with
    | some (s, none), hc => exact isDigit_of_mem_zeros hc
    | some (s, some f), _ =>
      rw [hseconds] at hsome
      cases hsome

/-- A directive that is covered. -/
theorem covers_directive {t : Instant} {c : Char} {text : List Char} {regex : String}
    (htext : directiveText t c = some text) (hcovered : coveredDirective t c)
    (hregex : ctimeRegex.lookup c = some regex) : Covers regex.toList text := by
  have hmonth := letters_of_mem_names (.inl t.monthName_mem)
  have hweekday := letters_of_mem_names (.inr t.weekdayName_mem)
  unfold directiveText at htext
  split at htext
  all_goals try obtain rfl := Option.some.inj htext
  all_goals try obtain rfl := Option.some.inj hregex
  -- The year, and its last digits.
  · exact @covers_zeros 4 t.year (by decide) t.year_lt
  · exact covers_two (Nat.mod_lt _ (by decide))
  -- The month: `%m`, `%o`, `%q`, `%b`, `%h` and `%B`.
  · exact covers_two t.month_lt
  · cases hcovered
  · exact covers_digit (of_decide_eq_true hcovered)
  · exact covers_anyLetters hmonth.2.1
  · exact covers_anyLetters hmonth.2.1
  · exact covers_anyLetters hmonth.1
  -- The day: `%d`, `%e`, `%g`, `%a` and `%A`.
  · exact covers_two t.day_lt
  · cases hcovered
  · exact covers_digit (of_decide_eq_true hcovered)
  · exact covers_anyLetters hweekday.2.1
  · exact covers_anyLetters hweekday.1
  -- The hour: `%H`, `%l`, `%I`, `%p` and `%P`.
  · exact covers_two t.hour_lt
  · cases hcovered
  · exact covers_two t.hour12_lt
  · exact covers_upperHalf _
  · exact covers_lowerHalf _
  -- The minute, the second and its parts.
  · exact covers_two t.minute_lt'
  · exact covers_two t.second_lt'
  · exact covers_anyDigits fun _ => isDigit_of_mem_zeros
  · exact covers_anyDigits fun _ => isDigit_of_mem_zeros
  · exact covers_anyDigits fun _ => isDigit_of_mem_zeros
  -- The zone: `%Z` and `%z`.
  · exact covers_anyLetters t.zone_letters
  · exact covers_offset hcovered
  · cases hcovered
  -- Dates and times: `%D`, `%x`, `%F`, `%T`, `%X`, `%r` and `%R`.
  · cases hcovered
  · cases hcovered
  · exact t.covers_date
  · exact t.covers_clock t.hour_lt
  · exact t.covers_clock t.hour_lt
  · exact t.covers_time12
  · exact (covers_two t.hour_lt).append (Covers.cons (by decide) (covers_two t.minute_lt'))
  -- Characters.
  · cases hcovered
  · exact covers_self (by decide)
  · exact covers_self (by decide)
  -- The date and the time.
  · exact t.covers_dateTime
  · cases htext

/-! ### Layouts -/

theorem replaceDirectives_append {w : List Char} (hw : '%' ∉ w) (s : List Char) :
    replaceDirectives (w ++ s) = (w ++ (replaceDirectives s).1, (replaceDirectives s).2) := by
  induction w with
  | nil => rfl
  | cons c w ih =>
    obtain ⟨hc, hw⟩ := not_or.mp (List.mem_cons.not.mp hw)
    rw [List.cons_append, replaceDirectives, ih hw]
    · rfl
    · exact fun d rest heq => absurd heq (Ne.symm hc)

theorem replaceDirectives_some {c : Char} {regex : String} (hc : c ≠ '\n') (h : ctimeRegex.lookup c = some regex)
    (s : List Char) : replaceDirectives ('%' :: c :: s) =
      (regex.toList ++ (replaceDirectives s).1, (replaceDirectives s).2) := by
  rw [replaceDirectives, if_neg hc, h]

theorem replaceDirectives_none {c : Char} (hc : c ≠ '\n') (h : ctimeRegex.lookup c = none) (s : List Char) :
    replaceDirectives ('%' :: c :: s) = ((replaceDirectives s).1, c :: (replaceDirectives s).2) := by
  rw [replaceDirectives, if_neg hc, h]

theorem escapedChar_of_mem {c : Char} (h : c ∈ regexSpecialChars) : ∃ rest, escapedChar c = '\\' :: rest := by
  rw [escapedChar, if_pos h]
  split
  · exact ⟨_, rfl⟩
  · exact ⟨_, rfl⟩

theorem escapedChar_of_not_mem {c : Char} (h : c ∉ regexSpecialChars) : escapedChar c = [c] := by
  have hslash : c ≠ '\\' := by
    rintro rfl
    exact h (by decide)
  rw [escapedChar, if_neg hslash, if_neg h]

theorem mem_ctimeRegex {c : Char} {regex : String} (h : ctimeRegex.lookup c = some regex) :
    (c, regex) ∈ ctimeRegex := by
  obtain ⟨before, after, htable, -⟩ := List.lookup_eq_some_iff.mp h
  exact htable ▸ List.mem_append_right before List.mem_cons_self

/-- What stands in the table needs no escapes, and has no line ends but in `%n`. -/
theorem plain_of_lookup {c d : Char} {regex : String} (h : ctimeRegex.lookup c = some regex)
    (hd : d ∈ regex.toList) : d ≠ '"' ∧ d ≠ '\\' ∧ (c = 'n' ∨ d ∉ lineEnds) := by
  have hplain : (ctimeRegex.all fun p => p.2.toList.all fun d =>
      d ≠ '"' && (d ≠ '\\' && (p.1 == 'n' || d ∉ lineEnds))) = true := by
    decide +kernel
  simpa using List.all_eq_true.mp (List.all_eq_true.mp hplain _ (mem_ctimeRegex h)) d hd

/-- A directive of a layout that is accepted. -/
theorem exists_of_accepted {c : Char} {s : List Char} (hc : c ≠ '\n')
    (haccepted : (replaceDirectives (('%' :: c :: s).flatMap escapedChar)).2 = []) :
    ∃ regex, ctimeRegex.lookup c = some regex ∧ replaceDirectives (('%' :: c :: s).flatMap escapedChar) =
      (regex.toList ++ (replaceDirectives (s.flatMap escapedChar)).1,
        (replaceDirectives (s.flatMap escapedChar)).2) := by
  by_cases hspecial : c ∈ regexSpecialChars
  · -- The directive is the backslash before the character, which is none.
    obtain ⟨rest, hrest⟩ := escapedChar_of_mem hspecial
    rw [List.flatMap_cons, List.flatMap_cons, hrest] at haccepted
    cases haccepted
  have hescaped : ('%' :: c :: s).flatMap escapedChar = '%' :: c :: s.flatMap escapedChar := by
    rw [List.flatMap_cons, List.flatMap_cons, escapedChar_of_not_mem hspecial]
    rfl
  rw [hescaped] at haccepted ⊢
  cases hregex : ctimeRegex.lookup c with
  | none =>
    rw [replaceDirectives_none hc hregex] at haccepted
    cases haccepted
  | some regex => exact ⟨regex, rfl, replaceDirectives_some hc hregex _⟩

theorem percent_not_mem_escapedChar {c : Char} (hc : c ≠ '%') : '%' ∉ escapedChar c := by
  rw [escapedChar]
  split
  · decide
  · split <;> simp [hc.symm]

section Literal

variable [ExprText.EscapeSequences]

open ExprText

/-- The body of a literal on one line whose pattern covers a text. -/
def CoversLiteral (regex text : List Char) : Prop :=
  ∃ pattern, Reads '"' regex pattern ∧ (∀ c ∈ lineEnds, c ∉ regex) ∧ Covers pattern text

theorem CoversLiteral.append {regex regex' text text' : List Char} (h : CoversLiteral regex text)
    (h' : CoversLiteral regex' text') : CoversLiteral (regex ++ regex') (text ++ text') := by
  obtain ⟨pattern, hreads, hline, hcovers⟩ := h
  obtain ⟨pattern', hreads', hline', hcovers'⟩ := h'
  refine ⟨pattern ++ pattern', hreads.append hreads', fun c hc hmem => ?_, hcovers.append hcovers'⟩
  exact (List.mem_append.mp hmem).elim (hline c hc) (hline' c hc)

/-- A character of a layout. -/
theorem coversLiteral_char {c : Char} (hc : c ∉ '"' :: '\\' :: lineEnds) : CoversLiteral (escapedChar c) [c] := by
  obtain ⟨hquote, hslash, hline⟩ : c ≠ '"' ∧ c ≠ '\\' ∧ c ∉ lineEnds := by
    simpa only [List.mem_cons, not_or] using hc
  have hspecial : regexSpecialChars.Perm metachars := by decide
  rw [escapedChar, if_neg hslash]
  by_cases hmem : c ∈ regexSpecialChars
  · -- The two backslashes are read as the one that the expression needs.
    rw [if_pos hmem]
    refine ⟨['\\', c], ?_, fun d hd hdmem => ?_, (Atom.escaped (hspecial.mem_iff.mp hmem)).covers rfl⟩
    · have hescape := (EscapeSequences.escape_backslash [] '\\').mpr ⟨rfl, rfl⟩
      exact .escaped (e := ['\\', '\\']) hescape (.plain hquote hslash .nil)
    · simp only [List.mem_cons, List.not_mem_nil, or_false] at hdmem
      rcases hdmem with rfl | rfl | rfl
      · exact absurd hd (by decide)
      · exact absurd hd (by decide)
      · exact hline hd
  · rw [if_neg hmem]
    refine ⟨[c], .plain hquote hslash .nil, fun d hd hdmem => ?_,
      (Atom.char fun h => hmem (hspecial.mem_iff.mpr h)).covers rfl⟩
    exact hline (List.mem_singleton.mp hdmem ▸ hd)

/-- A directive. -/
theorem coversLiteral_directive {t : Instant} {c : Char} {text : List Char} {regex : String}
    (htext : directiveText t c = some text) (hcovered : coveredDirective t c)
    (hregex : ctimeRegex.lookup c = some regex) : CoversLiteral regex.toList text := by
  have hnewline : c ≠ 'n' := by
    rintro rfl
    cases hcovered
  refine ⟨regex.toList, reads_of_not_mem (fun hd => (plain_of_lookup hregex hd).1 rfl)
    (fun hd => (plain_of_lookup hregex hd).2.1 rfl), fun d hd hmem => ?_, covers_directive htext hcovered hregex⟩
  exact (plain_of_lookup hregex hmem).2.2.resolve_left hnewline hd

/-- A layout that is accepted and covered. -/
theorem coversLiteral_layout {t : Instant} (s : List Char) {text : List Char}
    (haccepted : (replaceDirectives (s.flatMap escapedChar)).2 = []) (htext : formatLayout t s = some text)
    (hcovered : coveredLayout t s) : CoversLiteral (replaceDirectives (s.flatMap escapedChar)).1 text := by
  fun_induction formatLayout t s generalizing text with
  | case1 s ih => exact absurd hcovered Bool.false_ne_true
  | case2 c s hline ih =>
    obtain ⟨text, hdirective, hrest⟩ := Option.bind_eq_some_iff.mp htext
    obtain ⟨text', htext', rfl⟩ := Option.map_eq_some_iff.mp hrest
    rw [coveredLayout, Bool.and_eq_true, Bool.and_eq_true] at hcovered
    obtain ⟨⟨-, hc⟩, hs⟩ := hcovered
    obtain ⟨regex, hregex, heq⟩ := exists_of_accepted hline haccepted
    rw [heq] at haccepted ⊢
    exact (coversLiteral_directive hdirective hc hregex).append (ih haccepted htext' hs)
  | case3 c s hc ih =>
    obtain ⟨text', htext', rfl⟩ := Option.map_eq_some_iff.mp htext
    rw [coveredLayout.eq_2 _ _ _ hc, Bool.and_eq_true] at hcovered
    have hchar := coversLiteral_char (of_decide_eq_true hcovered.1)
    rw [List.flatMap_cons] at haccepted ⊢
    by_cases hpercent : c = '%'
    · -- A sign at the end is no directive.
      cases s with
      | nil =>
        subst hpercent
        obtain rfl := Option.some.inj htext'
        exact hchar
      | cons d s => exact absurd rfl (hc d s hpercent)
    · rw [replaceDirectives_append (percent_not_mem_escapedChar hpercent)] at haccepted ⊢
      exact hchar.append (ih haccepted htext' hcovered.2)
  | case4 =>
    obtain rfl := Option.some.inj htext
    exact ⟨[], .nil, fun _ _ => List.not_mem_nil, Covers.nil⟩

/-- A character of a layout whose expression is the body of a literal. -/
theorem reads_of_escapedChar {c : Char} {body pattern : List Char} (h : Reads '"' (escapedChar c ++ body) pattern) :
    c ≠ '"' ∧ ∃ pattern', Reads '"' body pattern' := by
  rw [escapedChar] at h
  split at h
  · rename_i hc
    exact ⟨by rw [hc]; decide, h.of_backslashes⟩
  rename_i hslash
  split at h
  · rename_i hmem
    obtain ⟨pattern', h⟩ := h.of_backslashes
    exact Reads.tail hslash h
  · exact Reads.tail hslash h

/-- A layout that is accepted and whose expression is the body of a literal. -/
theorem readable_of_reads (s : List Char) (haccepted : (replaceDirectives (s.flatMap escapedChar)).2 = [])
    (hline : ∀ c ∈ lineEnds, c ∉ (replaceDirectives (s.flatMap escapedChar)).1) {pattern : List Char}
    (hreads : Reads '"' (replaceDirectives (s.flatMap escapedChar)).1 pattern) : readableLayout s := by
  fun_induction readableLayout s generalizing pattern with
  | case1 c s ih =>
    have hnewline : c ≠ '\n' := by
      rintro rfl
      refine hline '\n' (by decide) ?_
      rw [List.flatMap_cons, List.flatMap_cons, escapedChar_of_not_mem (by decide)]
      exact List.mem_cons_of_mem _ List.mem_cons_self
    obtain ⟨regex, hregex, heq⟩ := exists_of_accepted hnewline haccepted
    rw [heq] at haccepted hline hreads
    obtain ⟨-, pattern, hrest⟩ := hreads.of_plain fun hd => (plain_of_lookup hregex hd).2.1 rfl
    refine Bool.and_eq_true_iff.mpr ⟨decide_eq_true fun hmem => ?_,
      ih haccepted (fun d hd hmem => hline d hd (List.mem_append_right _ hmem)) hrest⟩
    rcases List.mem_cons.mp hmem with rfl | hmem
    · obtain rfl := Option.some.inj hregex
      exact hline '\n' (by decide) List.mem_cons_self
    · rcases List.mem_pair.mp hmem with rfl | rfl
      · exact hnewline rfl
      · cases hregex
  | case2 c s hc ih =>
    have hchar : c ∉ lineEnds := by
      intro hmem
      refine hline c hmem ?_
      rw [List.flatMap_cons, escapedChar_of_not_mem, List.singleton_append]
      · rcases List.mem_pair.mp hmem with rfl | rfl <;> exact List.mem_cons_self
      · rcases List.mem_pair.mp hmem with rfl | rfl <;> decide
    by_cases hpercent : c = '%'
    · cases s with
      | nil =>
        subst hpercent
        rfl
      | cons d s => exact absurd rfl (hc d s hpercent)
    rw [List.flatMap_cons, replaceDirectives_append (percent_not_mem_escapedChar hpercent)] at haccepted hline hreads
    obtain ⟨hquote, pattern, hrest⟩ := reads_of_escapedChar hreads
    refine Bool.and_eq_true_iff.mpr ⟨decide_eq_true fun hmem => ?_,
      ih haccepted (fun d hd hmem => hline d hd (List.mem_append_right _ hmem)) hrest⟩
    exact (List.mem_cons.mp hmem).elim hquote hchar
  | case3 => rfl

end Literal

/-! ### The guard -/

theorem regexForStrptimeLayout_ok_iff {layout regex : String} : regexForStrptimeLayout layout = .ok regex ↔
    (replaceDirectives (layout.toList.flatMap escapedChar)).2 = [] ∧
      regex.toList = (replaceDirectives (layout.toList.flatMap escapedChar)).1 := by
  rw [regexForStrptimeLayout, toList_escapeSpecialChars]
  by_cases haccepted : (replaceDirectives (layout.toList.flatMap escapedChar)).2 = []
  · rw [if_neg (by rw [haccepted]; decide), and_iff_right haccepted]
    refine ⟨fun h => ?_, fun h => ?_⟩
    · rw [← Except.ok.inj h, String.toList_ofList]
    · rw [← h, String.ofList_toList]
  · rw [if_pos fun h => haccepted (List.eq_nil_of_length_eq_zero h)]
    exact iff_of_false (fun h => by cases h) fun h => haccepted h.1

/-- The guard lets the texts of the layouts through that are covered; it is a literal for the readable layouts
only. -/
theorem matchesLiteral_of_covered [ExprText.EscapeSequences] {layout regex : String} {t : Instant}
    {text : List Char} (hregex : regexForStrptimeLayout layout = .ok regex)
    (htext : formatLayout t layout.toList = some text) :
    (coveredLayout t layout.toList → MatchesLiteral regex text) ∧
      (MatchesLiteral regex text → readableLayout layout.toList) := by
  obtain ⟨haccepted, hregex⟩ := regexForStrptimeLayout_ok_iff.mp hregex
  rw [MatchesLiteral, hregex]
  constructor
  · intro hcovered
    obtain ⟨pattern, hreads, hline, hcovers⟩ := coversLiteral_layout layout.toList haccepted htext hcovered
    exact ⟨hline, pattern, hreads, hcovers.matchString⟩
  · rintro ⟨hline, pattern, hreads, -⟩
    exact readable_of_reads layout.toList haccepted hline hreads

/-- Noon of a day in November. -/
def november26 : Instant where
  year := 2023
  month := 11
  day := 26
  weekday := 0
  hour := 12
  minute := 3
  second := 28
  nanosecond := 239907000
  zone := []
  offset := some ⟨false, 5, 30, none⟩
  year_le := by decide
  month_pos := by decide
  month_le := by decide
  day_le := by decide
  hour_le := by decide
  minute_lt := by decide
  second_lt := by decide
  nanosecond_lt := by decide
  zone_letters := fun _ h => absurd h List.not_mem_nil
  offset_lt := by
    rintro o ⟨⟩
    exact ⟨by decide, by decide, fun s hs => by cases hs⟩

theorem matchesLiteral_november26 : letI := QueryBuilderToExpr.plainEscapes
    ∃ regex, regexForStrptimeLayout "%Y-%m-%dT%H.%f%z" = .ok regex ∧
      MatchesLiteral regex "2023-11-26T12.239907+0530".toList := by
  let _ := QueryBuilderToExpr.plainEscapes
  have hregex : regexForStrptimeLayout "%Y-%m-%dT%H.%f%z" =
      .ok "[0-9]{4}-[0-9]{2}-[0-9]{2}T[0-9]{2}\\\\.[0-9]*?[-+][0-9]*?" :=
    regexForStrptimeLayout_ok_iff.mpr ⟨rfl, rfl⟩
  exact ⟨_, hregex, (matchesLiteral_of_covered (t := november26) hregex rfl).1 rfl⟩

theorem not_matchesLiteral_quote : letI := QueryBuilderToExpr.plainEscapes
    ∃ regex, regexForStrptimeLayout "\"%Y\"" = .ok regex ∧
      formatLayout november26 "\"%Y\"".toList = some "\"2023\"".toList ∧
      ¬ MatchesLiteral regex "\"2023\"".toList := by
  let _ := QueryBuilderToExpr.plainEscapes
  refine ⟨"\"[0-9]{4}\"", regexForStrptimeLayout_ok_iff.mpr ⟨rfl, rfl⟩, rfl, ?_⟩
  rintro ⟨-, pattern, hreads, -⟩
  exact (ExprText.Reads.tail (by decide) hreads).1 rfl

end QueryService.LogParsingPipeline
