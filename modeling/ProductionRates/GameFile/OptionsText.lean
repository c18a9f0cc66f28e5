import ProductionRates.Decimal.Numeral
import ProductionRates.GameFile.Options

/-!
# Options as TOML

Options are written in TOML, as lines `global_name = "…"` and `production_speed = …`, each at most
once.  All else that TOML has, tables, arrays, dates and truth values, can only be a mistake here,
so of the language just keys, strings, integers and floats are read.

* `string?` — the four kinds of string;
* `number?` — integers and floats;
* `settings?` — a whole text, as the settings it makes in order;
* `LoadOptions.ofText?` — the options that a text stands for.
-/

namespace ProductionRates
namespace OptionsText

/-! ## Characters -/

/-- Blanks within a line. -/
def isBlank (c : Char) : Bool := c = ' ' || c = '\t'

/-- Characters that may stand in comments and strings as they are: the tab and all that are no
control characters. -/
def isPlain (c : Char) : Bool := c = '\t' || (32 ≤ c.toNat && c.toNat ≠ 127)

/-- Passes over blanks. -/
def skipBlanks (cs : List Char) : List Char := cs.dropWhile isBlank

/-- What follows a line break that stands here. -/
def lineBreak? : List Char → Option (List Char)
  | '\n' :: rest => some rest
  | '\r' :: '\n' :: rest => some rest
  | _ => none

/-- Passes over a comment, if one stands here. -/
def skipComment : List Char → List Char
  | '#' :: rest => rest.dropWhile isPlain
  | cs => cs

/-- What follows the line, of which nothing but blanks and a comment may be left. -/
def lineEnd? (cs : List Char) : Option (List Char) :=
  match skipComment (skipBlanks cs) with
  | [] => some []
  | rest => lineBreak? rest

/-! ## Strings -/

/-- The character of a code point that is one. -/
def charOf? (code : Nat) : Option Char :=
  if h : code.isValidChar then some (Char.ofNatAux code h) else none

/-- The character that `count` digits of base sixteen at the head of a text number. -/
def numbered? (count : Nat) (cs : List Char) : Option Char :=
  let digits := cs.take count
  if digits.length = count && digits.all Decimal.isHexDigit then
    charOf? (Decimal.natOfDigits 16 digits)
  else none

/-- The character that is escaped by what follows a backslash, and how long that is. -/
def escape? : List Char → Option (Char × Nat)
  | 'b' :: _ => some ('\x08', 1)
  | 't' :: _ => some ('\t', 1)
  | 'n' :: _ => some ('\n', 1)
  | 'f' :: _ => some ('\x0c', 1)
  | 'r' :: _ => some ('\r', 1)
  | '\x22' :: _ => some ('\x22', 1)
  | '\\' :: _ => some ('\\', 1)
  | 'u' :: rest => (numbered? 4 rest).map (·, 5)
  | 'U' :: rest => (numbered? 8 rest).map (·, 9)
  | _ => none

/-- The rest of a one-line string with escapes, after `skip` characters that are done with. -/
def basic? : Nat → List Char → Option (List Char × List Char)
  | _, [] => none
  | skip + 1, _ :: cs => basic? skip cs
  | 0, c :: cs =>
    if c = '\x22' then some ([], cs)
    else if c = '\\' then
      match escape? cs with
      | some (escaped, length) => do
        let (chars, rest) ← basic? length cs
        return (escaped :: chars, rest)
      | none => none
    else if isPlain c then do
      let (chars, rest) ← basic? 0 cs
      return (c :: chars, rest)
    else none

/-- The rest of a one-line string without escapes. -/
def literal? : List Char → Option (List Char × List Char)
  | [] => none
  | c :: cs =>
    if c = '\x27' then some ([], cs)
    else if isPlain c then do
      let (chars, rest) ← literal? cs
      return (c :: chars, rest)
    else none

/-- How many blanks and line breaks there are at the head of a text. -/
def spaceLength : List Char → Nat
  | '\r' :: '\n' :: rest => spaceLength rest + 2
  | c :: rest => if isBlank c || c = '\n' then spaceLength rest + 1 else 0
  | [] => 0

/-- What a backslash at the end of a line takes with it: all blanks and line breaks up to the next
other character. -/
def joinLength? (cs : List Char) : Option Nat :=
  match lineBreak? (skipBlanks cs) with
  | some _ => some (spaceLength cs)
  | none => none

/-- The rest of a string of many lines that ends with three of a quote, of which two more may stand
before the end; with escapes if `escapes`.  The first `skip` characters are done with. -/
def lines? (quote : Char) (escapes : Bool) : Nat → List Char → Option (List Char × List Char)
  | _, [] => none
  | skip + 1, _ :: cs => lines? quote escapes skip cs
  | 0, c :: cs =>
    if (c :: cs).take 3 = List.replicate 3 quote then
      let more := min 2 ((cs.drop 2).takeWhile (· = quote)).length
      some (List.replicate more quote, cs.drop (2 + more))
    else if c = '\\' && escapes then
      match joinLength? cs with
      | some length => lines? quote escapes length cs
      | none =>
        match escape? cs with
        | some (escaped, length) => do
          let (chars, rest) ← lines? quote escapes length cs
          return (escaped :: chars, rest)
        | none => none
    else if (lineBreak? (c :: cs)).isSome then do
      let (chars, rest) ← lines? quote escapes (if c = '\r' then 1 else 0) cs
      return ('\n' :: chars, rest)
    else if isPlain c then do
      let (chars, rest) ← lines? quote escapes 0 cs
      return (c :: chars, rest)
    else none

/-- A line break right after the opening of a string of many lines does not belong to it. -/
def afterOpening (cs : List Char) : List Char := (lineBreak? cs).getD cs

/-- A string of one line. -/
def lineString? : List Char → Option (List Char × List Char)
  | '\x22' :: rest => basic? 0 rest
  | '\x27' :: rest => literal? rest
  | _ => none

/-- A string. -/
def string? : List Char → Option (List Char × List Char)
  | '\x22' :: '\x22' :: '\x22' :: rest => lines? '\x22' true 0 (afterOpening rest)
  | '\x27' :: '\x27' :: '\x27' :: rest => lines? '\x27' false 0 (afterOpening rest)
  | cs => lineString? cs

/-! ## Numbers -/

/-- Digits of a kind, of which there is at least one, with single underscores between them; the
answer is without the underscores. -/
def digits? (isDigit : Char → Bool) : List Char → Option (List Char × List Char)
  | [] => none
  | c :: cs =>
    if isDigit c then
      match cs with
      | '_' :: rest => do
        let (digits, rest) ← digits? isDigit rest
        return (c :: digits, rest)
      | next :: rest =>
        if isDigit next then do
          let (digits, rest) ← digits? isDigit (next :: rest)
          return (c :: digits, rest)
        else some ([c], next :: rest)
      | [] => some ([c], [])
    else none

/-- Decimal digits without a zero before others. -/
def whole? : List Char → Option (List Char × List Char)
  | '0' :: rest => some (['0'], rest)
  | cs => digits? Char.isDigit cs

/-- The largest integer. -/
def largestInteger : Nat := Nat.pow 2 63 - 1

/-- An integer in a base other than ten. -/
def based? (base : Nat) (isDigit : Char → Bool) (cs : List Char) : Option (Float × List Char) := do
  let (digits, rest) ← digits? isDigit cs
  let n := Decimal.natOfDigits base digits
  if n ≤ largestInteger then some (Decimal.floatOfNat n, rest) else none

/-- A number with the given sign.  An integer has to fit 64 bits; a float may pass the largest
double only downwards. -/
def signed? (negative : Bool) (cs : List Char) : Option (Float × List Char) :=
  let sign (x : Float) : Float := if negative then -x else x
  match cs with
  | 'i' :: 'n' :: 'f' :: rest => some (sign (Float.ofBits 0x7ff0000000000000), rest)
  | 'n' :: 'a' :: 'n' :: rest => some (Float.ofBits 0x7ff8000000000000, rest)
  | cs => do
    let (whole, rest) ← whole? cs
    let (fraction, rest) ← Decimal.fraction? (digits? Char.isDigit) rest
    let (exponent, rest) ← Decimal.exponent? (digits? Char.isDigit) rest
    if fraction.isEmpty && exponent.isEmpty then
      let n : Int := Decimal.natOfDigits 10 whole
      let n := if negative then -n else n
      if -(largestInteger + 1 : Int) ≤ n ∧ n ≤ largestInteger then some (Decimal.floatOfInt n, rest)
      else none
    else
      let x := (Decimal.Numeral.ofChars (whole ++ fraction ++ exponent)).toFloat
      if negative || Decimal.isFinite x then some (sign x, rest) else none

/-- A number. -/
def number? : List Char → Option (Float × List Char)
  | '0' :: 'x' :: rest => based? 16 Decimal.isHexDigit rest
  | '0' :: 'o' :: rest => based? 8 (fun c => '0' ≤ c && c ≤ '7') rest
  | '0' :: 'b' :: rest => based? 2 (fun c => c = '0' || c = '1') rest
  | '+' :: rest => signed? false rest
  | '-' :: rest => signed? true rest
  | cs => signed? false cs

/-! ## Settings -/

/-- A value that an option can have. -/
inductive Setting where
  /-- A string. -/
  | text (value : String)
  /-- A number. -/
  | number (value : Float)

/-- A value. -/
def setting? (cs : List Char) : Option (Setting × List Char) :=
  match cs with
  | c :: _ =>
    if c = '\x22' || c = '\x27' then
      (string? cs).map fun (chars, rest) => (.text (String.ofList chars), rest)
    else (number? cs).map fun (x, rest) => (.number x, rest)
  | [] => none

/-- Characters that a key may hold without quotes. -/
def isBare (c : Char) : Bool := c.isAlphanum || c = '_' || c = '-'

/-- A key, in quotes or without. -/
def key? (cs : List Char) : Option (List Char × List Char) :=
  match cs.takeWhile isBare with
  | [] => lineString? cs
  | key => some (key, cs.dropWhile isBare)

/-- A line with a setting. -/
def settingLine? (cs : List Char) : Option ((String × Setting) × List Char) := do
  let (key, rest) ← key? cs
  match skipBlanks rest with
  | '=' :: rest =>
    let (setting, rest) ← setting? (skipBlanks rest)
    let rest ← lineEnd? rest
    return ((String.ofList key, setting), rest)
  | _ => none

/-- The settings of a text in order, line by line; the number of lines is bounded. -/
def settings? : Nat → List Char → Option (List (String × Setting))
  | 0, _ => none
  | lines + 1, cs =>
    match skipBlanks cs with
    | [] => some []
    | rest =>
      match lineEnd? rest with
      | some rest => settings? lines rest
      | none => do
        let (setting, rest) ← settingLine? rest
        let settings ← settings? lines rest
        return setting :: settings

end OptionsText

/-! ## Options -/

namespace LoadOptions

open OptionsText (Setting)

/-- Carries out a setting, unless there is no such option or its value is of the wrong type. -/
def withSetting? (options : LoadOptions) : String × Setting → Option LoadOptions
  | ("global_name", .text name) => some { options with globalName := name }
  | ("production_speed", .number speed) => some { options with productionSpeed := speed }
  | _ => none

/-- The options that settings make; no option is set twice. -/
def ofSettings? (settings : List (String × Setting)) : Option LoadOptions :=
  if (settings.map Prod.fst).Nodup then settings.foldlM withSetting? .default else none

/-- The options that a text stands for.  A byte order mark before it is passed over. -/
def ofText? (text : String) : Option LoadOptions :=
  let cs := match text.toList with
    | '\ufeff' :: rest => rest
    | cs => cs
  (OptionsText.settings? (cs.length + 1) cs).bind ofSettings?

end LoadOptions
end ProductionRates
