import SgxLkl.Lib.Block
import SgxLkl.Mem.Model

/-!
# The JSON parser

`json.c` parses a text in place and reports what it finds to a callback. Here the text is the list of
bytes from the pointer on; a string that was found is the string that the callback is given, after the
escapes have been replaced.

* `strtol`, `strtod`: the numbers. They do not know the end of the text and go on reading behind it.
* `getValue`, `getArray`, `getObject`: the parser. The first argument bounds the depth of the recursion;
  `parse` gives it enough.
-/

namespace SgxLkl.Json

/-! ## Characters -/

def ch (c : Char) : Byte := BitVec.ofNat 8 c.toNat

def bytes (s : String) : List Byte := s.toList.map ch

abbrev quote : Byte := 0x22
abbrev backslash : Byte := 0x5c
abbrev comma : Byte := 0x2c
abbrev colon : Byte := 0x3a
abbrev openBracket : Byte := 0x5b
abbrev closeBracket : Byte := 0x5d
abbrev openBrace : Byte := 0x7b
abbrev closeBrace : Byte := 0x7d

/-- `_tolower`; it subtracts where it should add. -/
def toLower (c : Byte) : Byte := if 0x41 ≤ c ∧ c ≤ 0x5a then c - 0x20 else c

def isDigit (c : Byte) : Bool := 0x30 ≤ c && c ≤ 0x39

def isSpace (c : Byte) : Bool := c = 0x20 || (0x09 ≤ c && c ≤ 0x0d)

/-- `_isprint`, which lists all characters from the blank to the tilde. -/
def isPrint (c : Byte) : Bool := 0x20 ≤ c && c ≤ 0x7e

def isNumberChar (c : Byte) : Bool :=
  isDigit c || c = ch '-' || c = ch '+' || c = ch 'e' || c = ch 'E' || c = ch '.'

def isDecimalOrExponent (c : Byte) : Bool := c = ch '.' || c = ch 'e' || c = ch 'E'

def charToNibble (c : Byte) : Byte :=
  if isDigit (toLower c) then toLower c - 0x30
  else if 0x61 ≤ toLower c ∧ toLower c ≤ 0x66 then 0xa + (toLower c - 0x61)
  else 0xff

/-! ## Numbers -/

/-- The digits of `_strtol` to base ten, with the value so far. The first result says that the value was
too large. -/
def strtolDigits (x : ℕ) : List Byte → Bool × ℕ × List Byte
  | [] => (false, x, [])
  | c :: cs =>
    if isDigit c then
      if x > (2 ^ 64 - 1) / 10 then (true, x, c :: cs)
      else if (c - 0x30).toNat > 2 ^ 64 - 1 - x * 10 then (true, x, c :: cs)
      else strtolDigits (x * 10 + (c - 0x30).toNat) cs
    else (false, x, c :: cs)

/-- The last part of `_strtol`: the value with its sign. -/
def signed (negative : Bool) (x : ℕ) : Word :=
  if negative then
    if x > 2 ^ 63 - 1 then if x = 2 ^ 63 then BitVec.ofNat 64 x else 0 else -BitVec.ofNat 64 x
  else BitVec.ofNat 64 x

def readSign (text : List Byte) : Bool × List Byte :=
  match text with
  | c :: cs => if c = ch '+' then (false, cs) else if c = ch '-' then (true, cs) else (false, c :: cs)
  | [] => (false, [])

/-- `_strtol` to base ten: the value, and the text from `*endptr` on. -/
def strtol (allowWhitespace : Bool) (text : List Byte) : Word × List Byte :=
  if allowWhitespace = false ∧ text.head?.any isSpace then (BitVec.allOnes 64, text)
  else
    let p := readSign (text.dropWhile isSpace)
    match strtolDigits 0 p.2 with
    | (true, _, rest) => (BitVec.allOnes 64, rest)
    | (false, x, rest) => if rest.length = text.length then (0, text) else (signed p.1 x, rest)

/-- What `_strtod` reads of a number with a fraction or an exponent; the number is
`±(whole + frac / scale) * 10^±exp`. -/
structure Real where
  negative : Bool
  whole : Word
  frac : Word
  scale : Word
  expNegative : Bool
  exp : Word
  deriving DecidableEq

/-- The exponent of `_strtod`, if there is one: its sign, its value, and `p` and `*endptr`. -/
def strtodExp (allowWhitespace : Bool) (p endptr : List Byte) : Bool × Word × List Byte :=
  match p with
  | c :: cs =>
    if c = ch 'e' ∨ c = ch 'E' then
      let negative := cs.head? = some (ch '-')
      let cs := if negative ∨ cs.head? = some (ch '+') then cs.tail else cs
      let e := strtol allowWhitespace cs
      (negative, e.1, if cs.length = e.2.length then endptr else e.2)
    else (false, 0, endptr)
  | [] => (false, 0, endptr)

/-- `_strtod`: the number, and the text from `*endptr` on. -/
def strtod (allowWhitespace : Bool) (text : List Byte) : Real × List Byte :=
  if allowWhitespace = false ∧ text.head?.any isSpace then (⟨false, 0, 0, 1, false, 0⟩, text)
  else
    let p := readSign (text.dropWhile isSpace)
    let x := strtol allowWhitespace p.2
    let haveX : Bool := p.2.length ≠ x.2.length
    let endptr := if haveX then x.2 else text
    match x.2 with
    | c :: cs =>
      if c = ch '.' then
        let y := strtol allowWhitespace cs
        if cs.length ≠ y.2.length then
          let e := strtodExp allowWhitespace y.2 y.2
          (⟨p.1, x.1, y.1, 10 ^ (cs.length - y.2.length), e.1, e.2.1⟩, e.2.2)
        else if haveX then
          let e := strtodExp allowWhitespace cs cs
          (⟨p.1, x.1, y.1, 1, e.1, e.2.1⟩, e.2.2)
        else (⟨false, 0, 0, 1, false, 0⟩, c :: cs)
      else
        let e := strtodExp allowWhitespace (c :: cs) endptr
        (⟨p.1, x.1, 0, 1, e.1, e.2.1⟩, e.2.2)
    | [] => (⟨p.1, x.1, 0, 1, false, 0⟩, endptr)

/-- `_strtou64` of the parser: the whole string has to be a number. -/
def strtou64 (allowWhitespace : Bool) (str : CString Byte) : Option Word :=
  match strtol allowWhitespace str.chars with
  | (x, []) => some x
  | (_, _ :: _) => none

/-! ## Results, values and the state of the parser -/

/-- `json_result_t` without `JSON_OK`. `fault` is not a result of the code: a callback has taken a value
for a pointer that is none. -/
inductive JsonResult
  | failed | eof | badSyntax | unsupported | badParameter | unexpected | outOfMemory | typeMismatch
  | nestingOverflow | nestingUnderflow | bufferOverflow | unknownValue | outOfBounds | noMatch | fault
  deriving DecidableEq, Repr

/-- `json_reason_t`. -/
inductive Reason
  | name | beginObject | endObject | beginArray | endArray | value
  deriving DecidableEq, Repr

/-- A value with its `json_type_t`. -/
inductive Value
  | null
  | boolean (b : Bool)
  | integer (x : Word)
  | real (x : Real)
  | string (s : CString Byte)

/-- `json_node_t`: one level of the path. -/
structure Node where
  name : CString Byte
  number : Word
  size : ℕ
  index : ℕ

/-- The path of the parser; only the first `depth` nodes are in use. -/
structure Path where
  depth : ℕ
  node : ℕ → Node

/-- `json_parser_t`: the text from `ptr` on, the path, and the data of the callback. -/
structure Parser (σ : Type) where
  rest : List Byte
  path : Path
  data : σ

/-- The callback is shown the path, and has its own data. -/
abbrev Callback (σ : Type) := Path → Reason → Value → σ → Except JsonResult σ

abbrev ParseM (σ : Type) := EStateM JsonResult (Parser σ)

variable {σ : Type}

def Path.modify (p : Path) (f : Node → Node) : Path :=
  { p with node := Function.update p.node (p.depth - 1) (f (p.node (p.depth - 1))) }

def invoke (callback : Callback σ) (scan : Bool) (reason : Reason) (v : Value) : ParseM σ Unit := fun s =>
  if scan then .ok () s
  else match callback s.path reason v s.data with
    | .ok d => .ok () { s with data := d }
    | .error e => .error e s

/-- The next character, which is not read behind the end. -/
def next : ParseM σ Byte := fun s =>
  match s.rest with
  | [] => .error .eof s
  | c :: cs => .ok c { s with rest := cs }

def skipWhitespace (allowWhitespace : Bool) : ParseM σ Unit := fun s =>
  if allowWhitespace then .ok () { s with rest := s.rest.dropWhile isSpace }
  else if s.rest.head?.any isSpace then .error .badSyntax s
  else .ok () s

/-- `_expect`; all its callers raise the same result. -/
def expect (str : List Byte) : ParseM σ Unit := fun s =>
  if str.isPrefixOf s.rest then .ok () { s with rest := s.rest.drop str.length } else .error .badSyntax s

/-- A call whose result is not passed on: the caller raises `JSON_BAD_SYNTAX`. -/
def orBadSyntax {α : Type} (x : ParseM σ α) : ParseM σ α := fun s =>
  match x s with
  | .ok a s' => .ok a s'
  | .error _ s' => .error .badSyntax s'

/-! ## Strings -/

/-- The search for the closing quote: the bytes in front of it and those behind it. The first argument is
the number of characters that are skipped. -/
def closingQuote : ℕ → List Byte → Option (List Byte × List Byte)
  | _, [] => none
  | k + 1, c :: cs => (closingQuote k cs).map fun r => (c :: r.1, r.2)
  | 0, c :: cs =>
    if c = quote then some ([], cs)
    else if c = backslash then
      if cs.head? = some (ch 'u') then
        if cs.length < 4 then none else (closingQuote 4 cs).map fun r => (c :: r.1, r.2)
      else (closingQuote 1 cs).map fun r => (c :: r.1, r.2)
    else (closingQuote 0 cs).map fun r => (c :: r.1, r.2)

/-- The character that an escape of two characters stands for. -/
def simpleEscape (c : Byte) : Option Byte :=
  if c = quote then some quote
  else if c = backslash then some backslash
  else if c = ch '/' then some (ch '/')
  else if c = ch 'b' then some 0x08
  else if c = ch 'f' then some 0x0c
  else if c = ch 'n' then some 0x0a
  else if c = ch 'r' then some 0x0d
  else if c = ch 't' then some 0x09
  else none

/-- `_hex_str4_to_u32`, and the test that the result is one byte. -/
def hexStr4 (a b c d : Byte) : Except JsonResult Byte :=
  if (charToNibble a ||| charToNibble b ||| charToNibble c ||| charToNibble d) &&& 0xf0 ≠ 0 then
    .error .badSyntax
  else if charToNibble a ≠ 0 ∨ charToNibble b ≠ 0 then .error .unsupported
  else .ok (charToNibble c <<< 4 ||| charToNibble d)

/-- The loop that replaces the escapes; it ends with the first `0`. -/
def unescape : List Byte → Except JsonResult (List Byte)
  | [] => .ok []
  | c :: cs =>
    if c = 0 then .ok []
    else if c = backslash then
      match cs with
      | [] => .error .eof
      | d :: ds =>
        if d = 0 then .error .eof
        else match simpleEscape d with
          | some e => (unescape ds).map (e :: ·)
          | none =>
            if d = ch 'u' then
              match ds with
              | x :: y :: z :: w :: ds' =>
                match hexStr4 x y z w with
                | .ok e => (unescape ds').map (e :: ·)
                | .error r => .error r
              | _ => .error .eof
            else .error .failed
    else (unescape cs).map (c :: ·)

def cstring (b : List Byte) : CString Byte :=
  ⟨b.takeWhile (· ≠ 0), fun h => by simpa using List.mem_takeWhile_imp h⟩

/-- `_get_string`. Without an escape the loop changes nothing. A scan does not look at the string. -/
def getString (scan : Bool) : ParseM σ (CString Byte) := fun s =>
  match closingQuote 0 s.rest with
  | none => .error .eof s
  | some (raw, rest) =>
    if scan then .ok (cstring raw) { s with rest := rest }
    else match unescape raw with
      | .ok str => .ok (cstring str) { s with rest := rest }
      | .error e => .error e { s with rest := rest }

/-! ## Values -/

/-- `_get_number`; `behind` is the memory behind the text. -/
def getNumber (allowWhitespace : Bool) (behind : List Byte) : ParseM σ Value := fun s =>
  let token := s.rest.takeWhile isNumberChar
  let rest := s.rest.dropWhile isNumberChar
  let s' := { s with rest := rest }
  if token.any isDecimalOrExponent then
    let r := strtod allowWhitespace (s.rest ++ behind)
    if r.2.length ≠ (rest ++ behind).length ∨ r.2.length = (s.rest ++ behind).length then
      .error .badSyntax s'
    else .ok (.real r.1) s'
  else
    let r := strtol allowWhitespace (s.rest ++ behind)
    if r.2.length ≠ (rest ++ behind).length ∨ r.2.length = (s.rest ++ behind).length then
      .error .badSyntax s'
    else .ok (.integer r.1) s'

def nodeOf (allowWhitespace : Bool) (name : CString Byte) : Node :=
  ⟨name, (strtou64 allowWhitespace name).getD (BitVec.allOnes 64), 0, 0⟩

def maxNesting : ℕ := 64

/-- What a call is told: the callback, the options, the memory behind the text. -/
structure Env (σ : Type) where
  callback : Callback σ
  allowWhitespace : Bool
  behind : List Byte

def enterObject : ParseM σ Unit := fun s =>
  let s' := { s with path := { s.path with depth := s.path.depth + 1 } }
  if s.path.depth = maxNesting then .error .nestingOverflow s' else .ok () s'

def leaveObject (env : Env σ) (scan : Bool) : ParseM σ Unit := do
  let s ← get
  if s.path.depth = 0 then throw .nestingUnderflow
  invoke env.callback scan .endObject .null
  modify fun s => { s with path := { s.path with depth := s.path.depth - 1 } }

def expectColon (allowWhitespace : Bool) : ParseM σ Unit := do
  skipWhitespace allowWhitespace
  let c ← next
  if c ≠ colon then throw .badSyntax

inductive Lead
  | false | null | true | object | array | string | number
  deriving DecidableEq

def lead (c : Byte) : Lead :=
  if c = ch 'f' then .false
  else if c = ch 'n' then .null
  else if c = ch 't' then .true
  else if c = openBrace then .object
  else if c = openBracket then .array
  else if c = quote then .string
  else .number

mutual

def getValue (env : Env σ) : ℕ → Bool → ParseM σ Unit
  | 0, _ => throw .unexpected
  | n + 1, scan => do
    skipWhitespace env.allowWhitespace
    let here ← get
    let c ← next
    match lead (toLower c) with
    | .false =>
      expect (bytes "alse")
      invoke env.callback scan .value (.boolean false)
    | .null =>
      expect (bytes "ull")
      invoke env.callback scan .value .null
    | .true =>
      expect (bytes "rue")
      invoke env.callback scan .value (.boolean true)
    | .object => getObject env n scan
    | .array =>
      let s ← get
      -- the array is scanned on a copy of the parser
      match getArray env n true 0 s with
      | .error _ _ => throw .badSyntax
      | .ok size _ =>
        set { s with path := s.path.modify fun node => { node with size := size } }
        invoke env.callback scan .beginArray (.integer (BitVec.ofNat 64 size))
        let _ ← orBadSyntax (getArray env n scan 0)
        invoke env.callback scan .endArray (.integer (BitVec.ofNat 64 size))
    | .string =>
      let str ← orBadSyntax (getString scan)
      invoke env.callback scan .value (.string str)
    | .number =>
      -- `parser->ptr--`
      set here
      let v ← getNumber env.allowWhitespace env.behind
      invoke env.callback scan .value v

/-- `_get_array` from element `index` on; the result is the number of elements. -/
def getArray (env : Env σ) : ℕ → Bool → ℕ → ParseM σ ℕ
  | 0, _, _ => throw .unexpected
  | n + 1, scan, index => do
    skipWhitespace env.allowWhitespace
    let here ← get
    let c ← next
    if c = comma then getArray env n scan index
    else if c = closeBracket then pure index
    else
      set { here with path := here.path.modify fun node => { node with index := index } }
      getValue env n scan
      getArray env n scan (index + 1)

def getObject (env : Env σ) : ℕ → Bool → ParseM σ Unit
  | 0, _ => throw .unexpected
  | n + 1, scan => do
    invoke env.callback scan .beginObject .null
    enterObject
    getMembers env n scan
    leaveObject env scan

/-- The loop of `_get_object`. Any other character between the members is passed over. -/
def getMembers (env : Env σ) : ℕ → Bool → ParseM σ Unit
  | 0, _ => throw .unexpected
  | n + 1, scan => do
    skipWhitespace env.allowWhitespace
    let c ← next
    if c = quote then
      let name ← getString scan
      modify fun s => { s with path := s.path.modify fun _ => nodeOf env.allowWhitespace name }
      invoke env.callback scan .name (.string name)
      expectColon env.allowWhitespace
      getValue env n scan
      getMembers env n scan
    else if c = closeBrace then pure ()
    else getMembers env n scan

end

/-- `json_parser_parse`, with a recursion depth that a text of this length cannot reach. -/
def parse (env : Env σ) : ParseM σ Unit := do
  let s ← get
  skipWhitespace env.allowWhitespace
  let c ← next
  if c ≠ openBrace then throw .badSyntax
  getObject env (2 * s.rest.length + 2) false

/-- `json_parser_init` and `json_parser_parse`. -/
def jsonParse (env : Env σ) (text : List Byte) (data : σ) : EStateM.Result JsonResult (Parser σ) Unit :=
  let s : Parser σ := ⟨text, ⟨0, fun _ => ⟨cstring [], 0, 0, 0⟩⟩, data⟩
  if text = [] then .error .badParameter s else parse env s

/-! ## Patterns -/

def split : List Byte → List (List Byte)
  | [] => [[]]
  | c :: cs =>
    if c = ch '.' then [] :: split cs
    else match split cs with
      | t :: ts => (c :: t) :: ts
      | [] => [[c]]

def matchTokens (allowWhitespace : Bool) (path : Path) : List (List Byte) → ℕ → Except JsonResult Unit
  | [], _ => .ok ()
  | t :: ts, i =>
    if t = bytes "#" then
      if (strtou64 allowWhitespace (path.node i).name).isNone then .error .typeMismatch
      else matchTokens allowWhitespace path ts (i + 1)
    else if t ≠ (path.node i).name.chars then .error .noMatch
    else matchTokens allowWhitespace path ts (i + 1)

def jsonMatch (allowWhitespace : Bool) (path : Path) (pattern : List Byte) : Except JsonResult Unit :=
  if maxNesting < (split pattern).length then .error .nestingOverflow
  else if path.depth ≠ (split pattern).length then .error .noMatch
  else matchTokens allowWhitespace path (split pattern) 0

end SgxLkl.Json
