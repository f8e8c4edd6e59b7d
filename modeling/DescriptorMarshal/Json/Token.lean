import DescriptorMarshal.Json.Basic
import DescriptorMarshal.Number.Decimal

/-!
The tokens of JSON text, found by a scanner that takes one character at a time.
-/

namespace DescriptorMarshal.Json

inductive Token where
  | openArray
  | closeArray
  | openObject
  | closeObject
  | comma
  | colon
  | text (value : String)
  | scalar (value : Json)
  deriving Repr

/-- Where the scanner is. Characters of the token at hand are kept in reverse. -/
inductive Scanner where
  | between
  | word (read : List Char)
  | string (read : List Char)
  | escape (read : List Char)
  /-- Among the four digits of a unicode escape, `missing + 1` of which are to come. A leading
  half of a pair waits in `lead`. -/
  | unicode (read : List Char) (lead : Option Nat) (missing code : Nat)
  | pairBackslash (read : List Char) (lead : Nat)
  | pairLetter (read : List Char) (lead : Nat)
  deriving Repr

def isWhitespace (c : Char) : Bool := c == ' ' || c == '\t' || c == '\n' || c == '\r'

def punctuation? (c : Char) : Option Token :=
  if c = '[' then some .openArray
  else if c = ']' then some .closeArray
  else if c = '\x7b' then some .openObject
  else if c = '\x7d' then some .closeObject
  else if c = ',' then some .comma
  else if c = ':' then some .colon
  else none

def isWordChar (c : Char) : Bool :=
  c.isAlphanum || c == '+' || c == '-' || c == '.'

def simpleEscape? (c : Char) : Option Char :=
  if c = '"' ∨ c = '\\' ∨ c = '/' then some c
  else if c = 'b' then some '\x08'
  else if c = 'f' then some '\x0c'
  else if c = 'n' then some '\n'
  else if c = 'r' then some '\r'
  else if c = 't' then some '\t'
  else none

/-- The grammar of whole numbers: no leading zero before another digit. -/
def wholePart? (digits : List Char) : Option (List Char) :=
  match digits with
  | [] => none
  | '0' :: _ :: _ => none
  | _ => some digits

/-- An integer that fits 64 bits stays one; minus zero and every longer integer is a double. -/
def ofWhole (negative : Bool) (n : Nat) : Option Json :=
  if negative then
    if 0 < n ∧ IntRange.signed64.contains (-n) then some (.integer (-n))
    else ofDecimal ⟨true, n, 0⟩
  else if IntRange.unsigned64.contains n then some (.integer n)
  else ofDecimal ⟨false, n, 0⟩
where
  ofDecimal (d : Decimal) : Option Json :=
    let x := d.toBinary64
    if x.isFinite then some (.double x) else none

def number? (word : List Char) : Option Json := do
  let (negative, unsigned) := match word with
    | '-' :: rest => (true, rest)
    | _ => (false, word)
  let (digits, rest) := spanDigits unsigned
  let whole ← wholePart? digits
  if rest = [] then ofWhole negative (natOfDigits whole)
  else
    let (fraction, rest) ← match rest with
      | '.' :: after =>
        let (fraction, rest) := spanDigits after
        if fraction = [] then none else some (fraction, rest)
      | _ => some ([], rest)
    let exponent ← Decimal.readExponent? rest
    let x := Decimal.toBinary64
      ⟨negative, natOfDigits (whole ++ fraction), exponent - fraction.length⟩
    if x.isFinite then some (.double x) else none

def word? (word : List Char) : Option Token :=
  if word = "null".toList then some (.scalar .null)
  else if word = "true".toList then some (.scalar (.bool true))
  else if word = "false".toList then some (.scalar (.bool false))
  else (number? word).map .scalar

namespace Scanner

def start (c : Char) : Option (Scanner × List Token) :=
  if isWhitespace c then some (between, [])
  else if c = '"' then some (string [], [])
  else match punctuation? c with
    | some token => some (between, [token])
    | none => if isWordChar c then some (word [c], []) else none

def isHighHalf (code : Nat) : Bool := 0xD800 ≤ code && code ≤ 0xDBFF
def isLowHalf (code : Nat) : Bool := 0xDC00 ≤ code && code ≤ 0xDFFF

/-- What the four digits of a unicode escape mean. A high half waits for its partner; a low half
is allowed only as one. -/
def endUnicode (read : List Char) (lead : Option Nat) (code : Nat) : Option Scanner :=
  match lead with
  | none =>
    if isHighHalf code then some (pairBackslash read code)
    else if isLowHalf code then none
    else some (string (Char.ofNat code :: read))
  | some high =>
    if isLowHalf code then
      some (string (Char.ofNat (0x10000 + (high - 0xD800) * 0x400 + (code - 0xDC00)) :: read))
    else none

def step : Scanner → Char → Option (Scanner × List Token)
  | between, c => start c
  | word read, c =>
    if isWordChar c then some (word (c :: read), [])
    else do
      let token ← word? read.reverse
      let (next, tokens) ← start c
      some (next, token :: tokens)
  | string read, c =>
    if c = '"' then some (between, [.text (String.ofList read.reverse)])
    else if c = '\\' then some (escape read, [])
    else if c.toNat < 32 then none
    else some (string (c :: read), [])
  | escape read, c =>
    if c = 'u' then some (unicode read none 3 0, [])
    else (simpleEscape? c).map fun plain => (string (plain :: read), [])
  | unicode read lead missing code, c => do
    let code := 16 * code + (← hexValue? c)
    match missing with
    | 0 => (endUnicode read lead code).map (·, [])
    | missing + 1 => some (unicode read lead missing code, [])
  | pairBackslash read lead, c => if c = '\\' then some (pairLetter read lead, []) else none
  | pairLetter read lead, c => if c = 'u' then some (unicode read (some lead) 3 0, []) else none

def run (scanner : Scanner) (tokens : List Token) : List Char → Option (List Token)
  | [] =>
    match scanner with
    | between => some tokens
    | word read => (word? read.reverse).map (· :: tokens)
    | _ => none
  | c :: rest =>
    match scanner.step c with
    | some (next, more) => run next (more.reverse ++ tokens) rest
    | none => none

end Scanner

def tokens? (text : List Char) : Option (List Token) :=
  (Scanner.run .between [] text).map List.reverse

end DescriptorMarshal.Json
