import Plaine.Lib.JsonText
import Plaine.Lib.Rounds

/-!
# The JSON of the RPC server

`rpc/src/json.rs`: a writer, and a parser that goes over the bytes once and refuses what is too long,
too deep or too wide.  A parser is kept as the bytes that are left, how many were read and how many
values were begun.  The levels of nesting that are left are the argument `value` recurses on.

Keys of an object are compared one by one while there are few of them, and by their hashes first when
there are many; the hash is any function.
-/

namespace Plaine.Rpc

open Plaine.Lib Plaine.Lib.JsonText

/-- `Json`. -/
abbrev Json : Type := JsonText.Json Int64

/-! ## The writer -/

/-- `{:04x}`. -/
def hex4Text (n : Nat) : Text :=
  [Nat.digitChar (n / 4096 % 16), Nat.digitChar (n / 256 % 16), Nat.digitChar (n / 16 % 16),
    Nat.digitChar (n % 16)]

/-- What `write_string` makes of a character. -/
def writeChar (c : Char) : Text :=
  if c.toNat = 0x22 ∨ c.toNat = 0x5c then [Char.ofNat 0x5c, c]
  else if c.toNat = 0x0a then [Char.ofNat 0x5c, 'n']
  else if c.toNat = 0x0d then [Char.ofNat 0x5c, 'r']
  else if c.toNat = 0x09 then [Char.ofNat 0x5c, 't']
  else if c.toNat = 0x08 then [Char.ofNat 0x5c, 'b']
  else if c.toNat = 0x0c then [Char.ofNat 0x5c, 'f']
  else if c.toNat < 0x20 ∨ c.toNat = 0x2028 ∨ c.toNat = 0x2029 then
    Char.ofNat 0x5c :: 'u' :: hex4Text c.toNat
  else [c]

/-- `write_string`. -/
def writeString (s : Text) : Text :=
  Char.ofNat 0x22 :: (s.flatMap writeChar ++ [Char.ofNat 0x22])

/-- `i64::to_string`. -/
def writeInt (n : Int64) : Text :=
  if n.toInt < 0 then '-' :: Text.decimal (-n.toInt).toNat else Text.decimal n.toInt.toNat

mutual

/-- `Json::write`. -/
def write : Json → Text
  | .null => ['n', 'u', 'l', 'l']
  | .bool true => ['t', 'r', 'u', 'e']
  | .bool false => ['f', 'a', 'l', 's', 'e']
  | .num n => writeInt n
  | .str s => writeString s
  | .arr items => '[' :: (writeItems items ++ [']'])
  | .obj members => Char.ofNat 0x7b :: (writeMembers members ++ [Char.ofNat 0x7d])

/-- The items of an array in `Json::write`. -/
def writeItems : List Json → Text
  | [] => []
  | [v] => write v
  | v :: w :: items => write v ++ ',' :: writeItems (w :: items)

/-- The members of an object in `Json::write`. -/
def writeMembers : List (Text × Json) → Text
  | [] => []
  | [(key, v)] => writeString key ++ ':' :: write v
  | (key, v) :: m :: members => writeString key ++ ':' :: (write v ++ ',' :: writeMembers (m :: members))

end

/-! ## The parser -/

/-- `JsonLimits`. -/
structure JsonLimits where
  maxBytes : Nat
  maxDepth : Nat
  maxValues : Nat
  maxMembers : Nat
deriving DecidableEq

/-- `JsonLimits::request`. -/
def JsonLimits.request : JsonLimits where
  maxBytes := 1024 * 1024
  maxDepth := 16
  maxValues := 65536
  maxMembers := 4096

/-- `JsonErrorKind`. -/
inductive JsonErrorKind where
  | tooLarge (len max : Nat)
  | tooDeep (max : Nat)
  | tooManyValues (max : Nat)
  | tooManyMembers (max : Nat)
  | unexpectedEnd
  | unexpected (found : Char)
  | floatRejected
  | integerOutOfRange
  | badEscape
  | badString
  | duplicateKey (key : Text)
  | trailingBytes
deriving DecidableEq

/-- `JsonError`. -/
structure JsonError where
  kind : JsonErrorKind
  offset : Nat
deriving DecidableEq

/-- `DUP_KEY_LINEAR_SCAN_MAX`. -/
def dupKeyLinearScanMax : Nat := 16

/-- `Parser`: what is left of the input, how much of it was read, and the values that were counted. -/
structure Parser where
  rest : Bytes
  pos : Nat
  values : Nat
deriving DecidableEq

namespace Parser

variable {α : Type} (p : Parser)

/-- `Parser::err`. -/
def fail (kind : JsonErrorKind) : Except JsonError α := .error ⟨kind, p.pos⟩

/-- `Parser::peek`. -/
def peek : Option UInt8 := p.rest.head?

/-- So many bytes further on. -/
def bump (n : Nat) : Parser := { p with rest := p.rest.drop n, pos := p.pos + n }

/-- The byte that is there is not expected. -/
def unexpected : Except JsonError α :=
  p.fail (.unexpected (Char.ofNat (p.peek.getD 0x3f).toNat))

/-- `Parser::skip_ws`. -/
def skipWs : Parser := p.bump (p.rest.takeWhile isBlank).length

/-- `Parser::count_value`. -/
def countValue (limits : JsonLimits) : Except JsonError Parser :=
  if limits.maxValues < p.values + 1 then p.fail (.tooManyValues limits.maxValues)
  else .ok { p with values := p.values + 1 }

/-- `Parser::literal`. -/
def literal (want : Bytes) (v : Json) : Except JsonError (Json × Parser) :=
  if want <+: p.rest then .ok (v, p.bump want.length) else p.unexpected

/-! ### Strings -/

/-- `Parser::hex4`. -/
def hex4 : Except JsonError (Nat × Parser) :=
  match p.rest with
  | a :: b :: c :: d :: _ =>
    match hexValue a, hexValue b, hexValue c, hexValue d with
    | some i, some j, some k, some l => .ok (((i * 16 + j) * 16 + k) * 16 + l, p.bump 4)
    | _, _, _, _ => p.fail .badEscape
  | _ => p.fail .unexpectedEnd

/-- `char::from_u32`. -/
def charFromU32 (n : Nat) : Option Char := if n.isValidChar then some (Char.ofNat n) else none

/-- The character of a code, where there is one. -/
def charOf (code : Nat) : Except JsonError (Char × Parser) :=
  match charFromU32 code with
  | some c => .ok (c, p)
  | none => p.fail .badEscape

/-- `Parser::unicode_escape` behind the first half of a surrogate pair. -/
def secondHalf (hi : Nat) : Except JsonError (Char × Parser) :=
  if p.peek ≠ some 0x5c then p.fail .badEscape
  else if (p.bump 1).peek ≠ some 0x75 then (p.bump 1).fail .badEscape
  else do
    let (lo, p) ← ((p.bump 1).bump 1).hex4
    if ¬isLow lo then p.fail .badEscape else p.charOf (joined hi lo)

/-- `Parser::unicode_escape`. -/
def unicodeEscape : Except JsonError (Char × Parser) := do
  let (hi, p) ← p.hex4
  if isHigh hi then p.secondHalf hi
  else if isLow hi then p.fail .badEscape
  else p.charOf hi

/-- `utf8_len`. -/
def utf8Len (b : UInt8) : Nat :=
  if b ≤ 0x7f then 1
  else if 0xc2 ≤ b ∧ b ≤ 0xdf then 2
  else if 0xe0 ≤ b ∧ b ≤ 0xef then 3
  else if 0xf0 ≤ b ∧ b ≤ 0xf4 then 4
  else 0

/-- What stands in a string at the byte `b`, which is neither a quote nor an end. -/
def piece (b : UInt8) : Except JsonError (Text × Parser) :=
  if b = 0x5c then
    let p := p.bump 1
    match p.peek with
    | none => p.fail .unexpectedEnd
    | some e =>
      let p := p.bump 1
      if e = 0x75 then do
        let (c, p) ← p.unicodeEscape
        return ([c], p)
      else
        match shortEscape e with
        | some c => .ok ([c], p)
        | none => p.fail .badEscape
  else if b ≤ 0x1f then p.fail .badString
  else
    let len := utf8Len b
    if len = 0 ∨ p.rest.length < len then p.fail .badString
    else
      match Text.fromUtf8 (p.rest.take len) with
      | some s => .ok (s, p.bump len)
      | none => p.fail .badString

/-- A round of `Parser::string`. -/
def stringStep (s : Text × Parser) :
    Except JsonError ((Text × Parser) ⊕ (Text × Parser)) :=
  match s.2.peek with
  | none => s.2.fail .unexpectedEnd
  | some b =>
    if b = 0x22 then .ok (.inr (s.1, s.2.bump 1))
    else do
      let (cs, p) ← s.2.piece b
      return .inl (s.1 ++ cs, p)

/-- `Parser::string`. -/
def string : Except JsonError (Text × Parser) :=
  Except.rounds stringStep ⟨.unexpectedEnd, p.pos⟩ (p.rest.length + 1) ([], p.bump 1)

/-! ### Numbers -/

/-- `str::parse` to an `i64`, of digits with or without a sign. -/
def parseI64 (neg : Bool) (digits : Bytes) : Option Int64 :=
  let n := valueOf digits
  if neg then if n ≤ 2 ^ 63 then some (Int64.ofInt (-n)) else none
  else if n < 2 ^ 63 then some (Int64.ofInt n) else none

/-- `Parser::number` behind the sign. -/
def unsigned (start : Parser) (neg : Bool) : Except JsonError (Json × Parser) :=
  let digits := p.rest.takeWhile isDigit
  let q := p.bump digits.length
  if digits = [] then q.unexpected
  else if digits.head? = some 0x30 ∧ 1 < digits.length then p.fail (.unexpected '0')
  else if q.peek = some 0x2e ∨ q.peek = some 0x65 ∨ q.peek = some 0x45 then q.fail .floatRejected
  else
    match parseI64 neg digits with
    | some n => .ok (.num n, q)
    | none => start.fail .integerOutOfRange

/-- `Parser::number`. -/
def number : Except JsonError (Json × Parser) :=
  if p.peek = some 0x2d then (p.bump 1).unsigned p true else p.unsigned p false

/-! ### Arrays and objects -/

variable {σ : Type}

/-- What stands behind an item: a comma, or the closing bracket. -/
def behind (close : UInt8) (s : σ) (v : Json) : Except JsonError ((σ × Parser) ⊕ (Json × Parser)) :=
  match p.skipWs.peek with
  | some b =>
    if b = 0x2c then .ok (.inl (s, p.skipWs.bump 1))
    else if b = close then .ok (.inr (v, p.skipWs.bump 1))
    else p.skipWs.unexpected
  | none => p.skipWs.fail .unexpectedEnd

/-- What stands between brackets, read by rounds of `step` unless there is nothing. -/
def enclosed (close : UInt8) (step : σ × Parser → Except JsonError ((σ × Parser) ⊕ (Json × Parser)))
    (s : σ) (v : Json) : Except JsonError (Json × Parser) :=
  let p := (p.bump 1).skipWs
  if p.peek = some close then .ok (v, p.bump 1)
  else Except.rounds step ⟨.unexpectedEnd, p.pos⟩ (p.rest.length + 1) (s, p)

variable (limits : JsonLimits) (value : Parser → Except JsonError (Json × Parser))

/-- A round of `Parser::array`. -/
def arrayStep (s : List Json × Parser) : Except JsonError ((List Json × Parser) ⊕ (Json × Parser)) :=
  let (items, p) := s
  let p := p.skipWs
  if limits.maxMembers < items.length + 1 then p.fail (.tooManyMembers limits.maxMembers)
  else do
    let (v, p) ← value p
    p.behind 0x5d (items ++ [v]) (.arr (items ++ [v]))

/-- `Parser::array`. -/
def array : Except JsonError (Json × Parser) := p.enclosed 0x5d (arrayStep limits value) [] (.arr [])

/-- The members of an object so far, and the hashes of their keys once there are many. -/
structure Members where
  members : List (Text × Json)
  seen : Option (List UInt64)

variable (hashKey : Text → UInt64)

/-- A key is there already. -/
def Members.duplicate (m : Members) (key : Text) : Bool :=
  match m.seen with
  | some set => set.contains (hashKey key) && m.members.any (·.1 == key)
  | none => m.members.any (·.1 == key)

/-- One more member. -/
def Members.push (m : Members) (key : Text) (v : Json) : Members :=
  let members := m.members ++ [(key, v)]
  match m.seen with
  | some set => ⟨members, some (hashKey key :: set)⟩
  | none =>
    if dupKeyLinearScanMax ≤ members.length then ⟨members, some (members.map (hashKey ·.1))⟩
    else ⟨members, none⟩

/-- A round of `Parser::object`. -/
def objectStep (s : Members × Parser) : Except JsonError ((Members × Parser) ⊕ (Json × Parser)) :=
  let (m, p) := s
  let p := p.skipWs
  if p.peek ≠ some 0x22 then p.unexpected
  else do
    let (key, p) ← p.string
    if m.duplicate hashKey key then p.fail (.duplicateKey key)
    else if limits.maxMembers < m.members.length + 1 then p.fail (.tooManyMembers limits.maxMembers)
    else if p.skipWs.peek ≠ some 0x3a then p.skipWs.unexpected
    else do
      let (v, p) ← value (p.skipWs.bump 1).skipWs
      p.behind 0x7d (m.push hashKey key v) (.obj (m.push hashKey key v).members)

/-- `Parser::object`. -/
def object : Except JsonError (Json × Parser) :=
  p.enclosed 0x7d (objectStep limits value hashKey) ⟨[], none⟩ (.obj [])

/-- What stands at the byte `b` in `Parser::value`. -/
def valueAt (b : UInt8) : Except JsonError (Json × Parser) :=
  if b = 0x7b then p.object limits value hashKey
  else if b = 0x5b then p.array limits value
  else if b = 0x22 then do
    let (s, p) ← p.string
    return (.str s, p)
  else if b = 0x74 then p.literal [0x74, 0x72, 0x75, 0x65] (.bool true)
  else if b = 0x66 then p.literal [0x66, 0x61, 0x6c, 0x73, 0x65] (.bool false)
  else if b = 0x6e then p.literal [0x6e, 0x75, 0x6c, 0x6c] .null
  else if b = 0x2d ∨ isDigit b then p.number
  else p.unexpected

end Parser

/-- `Parser::value`, with so many levels left. -/
def value (limits : JsonLimits) (hashKey : Text → UInt64) :
    Nat → Parser → Except JsonError (Json × Parser)
  | 0, p => p.fail (.tooDeep limits.maxDepth)
  | k + 1, p => do
    let p ← p.countValue limits
    match p.peek with
    | none => p.fail .unexpectedEnd
    | some b => p.valueAt limits (value limits hashKey k) hashKey b

/-- `parse`. -/
def parse (hashKey : Text → UInt64) (input : Bytes) (limits : JsonLimits) : Except JsonError Json :=
  if limits.maxBytes < input.length then
    .error ⟨.tooLarge input.length limits.maxBytes, 0⟩
  else do
    let p : Parser := ⟨input, 0, 0⟩
    let (v, p) ← value limits hashKey (limits.maxDepth + 1) p.skipWs
    let p := p.skipWs
    if p.rest ≠ [] then p.fail .trailingBytes else return v

end Plaine.Rpc
