import Plaine.Rpc.Json
import Plaine.Lib.Utf8

/-!
# Requests

`rpc/src/http.rs`: where the head of a request ends, what is read of it, and what is refused of what
was read.  The texts of a head are of ASCII, since every other byte is refused before one is made.

A head is read as exactly the text it is, up to the case of its names and the blanks around its
values, and what is read does not depend on what is behind it.
-/

namespace Plaine.Rpc

open Plaine.Lib

/-! ## Limits and refusals -/

/-- `HttpLimits`. -/
structure HttpLimits where
  maxHeadBytes : Nat
  maxHeaders : Nat
  maxBodyBytes : Nat
  maxRequestsPerConn : Nat
deriving DecidableEq

/-- `HttpLimits::default`. -/
def HttpLimits.default : HttpLimits where
  maxHeadBytes := 8 * 1024
  maxHeaders := 64
  maxBodyBytes := 1024 * 1024
  maxRequestsPerConn := 1000

/-- `HttpFail`. -/
structure HttpFail where
  status : Nat
  detail : Text
  extraHeaders : List (Text × Text)
deriving DecidableEq

/-- `HttpFail::new`. -/
def HttpFail.new (status : Nat) (detail : Text) : HttpFail where
  status := status
  detail := detail
  extraHeaders := []

/-- `RequestHead`. -/
structure RequestHead where
  method : Text
  target : Text
  http11 : Bool
  headers : List (Text × Text)
  headLen : Nat
deriving DecidableEq

namespace RequestHead

variable (head : RequestHead)

/-- `RequestHead::header`. -/
def header (name : Text) : Option Text := (head.headers.find? (·.1 == name)).map (·.2)

/-- `RequestHead::header_count`. -/
def headerCount (name : Text) : Nat := head.headers.countP (·.1 == name)

/-- `RequestHead::wants_keep_alive`. -/
def wantsKeepAlive : Bool :=
  match head.header "connection".toList with
  | some v =>
    if Text.toAsciiLowercase v = "close".toList then false
    else if Text.toAsciiLowercase v = "keep-alive".toList then true
    else head.http11
  | none => head.http11

end RequestHead

/-- `HeadProgress`. -/
inductive HeadProgress where
  | needMore
  | done (head : RequestHead)
  | fail (fail : HttpFail)
deriving DecidableEq

/-- `{:?}` of a text of printable characters and tabs. -/
def debugText (s : Text) : Text :=
  Char.ofNat 0x22 :: (s.flatMap (fun c ↦
    if c = '\t' then [Char.ofNat 0x5c, 't']
    else if c.toNat = 0x22 ∨ c.toNat = 0x5c then [Char.ofNat 0x5c, c]
    else [c]) ++ [Char.ofNat 0x22])

/-! ## Heads -/

/-- What ends a head. -/
def headMark : Bytes := [0x0d, 0x0a, 0x0d, 0x0a]

/-- `find_head_end`. -/
def findHeadEnd : Bytes → Option Nat
  | [] => none
  | b :: buf => if headMark <+: b :: buf then some 4 else (findHeadEnd buf).map (· + 1)

/-- A carriage return that ends no line. -/
def bareCr : HttpFail :=
  .new 400 "a bare CR in the request head; lines are terminated by CRLF".toList

/-- A newline that ends no line. -/
def bareLf : HttpFail :=
  .new 400 ("a bare LF in the request head; lines are terminated by CRLF. An LF that " ++
    "splits a header here but not in a proxy in front of this node is a " ++
    "request-smuggling vector.").toList

/-- A byte beyond ASCII. -/
def nonAscii : HttpFail := .new 400 "non-ASCII byte in the request head".toList

/-- A byte that is not printed. -/
def controlByte : HttpFail :=
  .new 400 ("a control byte in the request head; only printable ASCII, HTAB and the CRLF " ++
    "line terminators are allowed").toList

/-- What is wrong with a byte of a head, between the byte before it and the one behind it. -/
def badByte (prev : Option UInt8) (b : UInt8) (behind : Option UInt8) : Option HttpFail :=
  if b = 0x0d then if behind ≠ some 0x0a then some bareCr else none
  else if b = 0x0a then if prev ≠ some 0x0d then some bareLf else none
  else if b = 0x09 then none
  else if 0x80 ≤ b then some nonAscii
  else if b < 0x20 ∨ b = 0x7f then some controlByte
  else none

/-- The loop of `read_head` over the bytes of a head. -/
def checkHead : Option UInt8 → Bytes → Except HttpFail Unit
  | _, [] => .ok ()
  | prev, b :: head =>
    match badByte prev b head.head? with
    | some fail => .error fail
    | none => checkHead (some b) head

/-- `split("\r\n")`. -/
def splitCrlf : Text → List Text
  | [] => [[]]
  | '\r' :: '\n' :: text => [] :: splitCrlf text
  | c :: text => (splitCrlf text).modifyHead (c :: ·)

/-- The first line of a head in `read_head`: the method, the target and whether it is HTTP/1.1. -/
def parseRequestLine (line : Text) : Except HttpFail (Text × Text × Bool) :=
  match line.splitOn ' ' with
  | [method, target, version] =>
    if version = "HTTP/1.1".toList then .ok (method, target, true)
    else if version = "HTTP/1.0".toList then .ok (method, target, false)
    else .error (.new 505 ("unsupported HTTP version ".toList ++ debugText version ++
      "; this server speaks 1.0 and 1.1".toList))
  | _ => .error (.new 400 "malformed request line".toList)

/-- `is_tchar`. -/
def isTchar (c : Char) : Bool := c.isAlphanum || "!#$%&'*+-.^_`|~".toList.contains c

/-- `str::trim`. -/
def trim (s : Text) : Text := ((s.dropWhile Text.isWhite).reverse.dropWhile Text.isWhite).reverse

/-- A header line in `read_head`. -/
def parseHeader (line : Text) : Except HttpFail (Text × Text) :=
  if line.head? = some ' ' ∨ line.head? = some '\t' then
    .error (.new 400 "obsolete line folding in headers".toList)
  else
    match Text.splitOnce ':' line with
    | none => .error (.new 400 "header line without a colon".toList)
    | some (name, value) =>
      if name = [] ∨ name.getLast? = some ' ' ∨ name.getLast? = some '\t' then
        .error (.new 400 "whitespace before a header colon".toList)
      else if ¬name.all isTchar then
        .error (.new 400 "illegal character in a header name".toList)
      else .ok (Text.toAsciiLowercase name, trim value)

/-- The loop of `read_head` over the lines behind the first. -/
def readHeaders (limits : HttpLimits) :
    List (Text × Text) → List Text → Except HttpFail (List (Text × Text))
  | headers, [] => .ok headers
  | headers, line :: lines =>
    if line = [] then .ok headers
    else if limits.maxHeaders < headers.length + 1 then
      .error (.new 431 ("more than ".toList ++ Text.decimal limits.maxHeaders ++
        " header lines".toList))
    else
      match parseHeader line with
      | .error fail => .error fail
      | .ok header => readHeaders limits (headers ++ [header]) lines

/-- What `read_head` makes of the text of a head. -/
def parseHead (text : Text) (headLen : Nat) (limits : HttpLimits) : Except HttpFail RequestHead :=
  match splitCrlf text with
  | [] => .error (.new 400 "empty request".toList)
  | requestLine :: lines => do
    let (method, target, http11) ← parseRequestLine requestLine
    let headers ← readHeaders limits [] lines
    return { method := method.map Char.toUpper, target, http11, headers, headLen }

/-- What `read_head` makes of the bytes of a head. -/
def decodeHead (head : Bytes) (limits : HttpLimits) : Except HttpFail RequestHead := do
  checkHead none head
  match Text.fromUtf8 head with
  | none => .error (.new 400 "request head is not valid ASCII".toList)
  | some text => parseHead text head.length limits

/-- `read_head`. -/
def readHead (buf : Bytes) (limits : HttpLimits) : HeadProgress :=
  match findHeadEnd buf with
  | none =>
    if limits.maxHeadBytes < buf.length then
      .fail (.new 431 ("request head exceeds ".toList ++ Text.decimal limits.maxHeadBytes ++
        " bytes with no terminator".toList))
    else .needMore
  | some stop =>
    if limits.maxHeadBytes < stop then
      .fail (.new 431 ("request head is ".toList ++ Text.decimal stop ++ " bytes, limit is ".toList ++
        Text.decimal limits.maxHeadBytes))
    else
      match decodeHead (buf.take stop) limits with
      | .ok head => .done head
      | .error fail => .fail fail

/-! ## What is refused -/

/-- `AuthPolicy`. -/
inductive AuthPolicy where
  | loopbackNoToken
  | bearerToken (token : Text)
deriving DecidableEq

/-- `HttpContext`. -/
structure HttpContext where
  limits : HttpLimits
  auth : AuthPolicy
  loopback : Bool
  port : Nat
deriving DecidableEq

/-- `str::strip_prefix`. -/
def stripPrefix (pre s : Text) : Option Text := if pre <+: s then some (s.drop pre.length) else none

/-- `port_matches`. -/
def portMatches (colonPort : Text) (port : Nat) : Bool :=
  match stripPrefix [':'] colonPort with
  | some p => Text.parseUnsigned 65535 p == some port
  | none => false

/-- `str::rsplit_once`. -/
def rsplitOnce (sep : Char) (s : Text) : Option (Text × Text) :=
  (Text.splitOnce sep s.reverse).map fun (b, a) ↦ (a.reverse, b.reverse)

/-- The name of a host, if the port that is named with it is the port. -/
def hostName (host : Text) (port : Nat) : Option Text :=
  match stripPrefix ['['] host with
  | some rest =>
    match Text.splitOnce ']' rest with
    | some (inside, tail) => if tail ≠ [] ∧ ¬portMatches tail port then none else some inside
    | none => none
  | none =>
    match rsplitOnce ':' host with
    | some (h, p) => if ¬portMatches (':' :: p) port then none else some h
    | none => some host

/-- `host_is_loopback`. -/
def hostIsLoopback (host : Text) (port : Nat) : Bool :=
  match hostName (trim host) port with
  | some name =>
    ["localhost".toList, "127.0.0.1".toList, "::1".toList, "0:0:0:0:0:0:0:1".toList].contains
      (Text.toAsciiLowercase name)
  | none => false

/-- `constant_time_eq`. -/
def constantTimeEq (a b : Bytes) : Bool :=
  if a.length ≠ b.length then false
  else (List.zip a b).foldl (fun diff p ↦ diff ||| (p.1 ^^^ p.2)) 0 == 0

/-- The host in `validate_head`. -/
def checkHost (head : RequestHead) (ctx : HttpContext) : Except HttpFail Unit :=
  if ctx.loopback then
    match head.header "host".toList with
    | some h =>
      if hostIsLoopback h ctx.port then .ok ()
      else .error (.new 403 ("Host ".toList ++ debugText h ++ (" is not a loopback name. This " ++
        "listener is bound to loopback and only answers to 127.0.0.1, [::1] or localhost.").toList))
    | none => .error (.new 400 ("a Host header is required. This listener is bound to loopback and " ++
        "pins Host to 127.0.0.1, [::1] or localhost.").toList)
  else .ok ()

/-- The content length in `validate_head`. -/
def contentLength (head : RequestHead) (ctx : HttpContext) : Except HttpFail Nat :=
  match head.header "content-length".toList with
  | some v =>
    if v = [] ∨ ¬v.all Char.isDigit then
      .error (.new 400 ("Content-Length must be decimal digits and nothing else (RFC 7230: " ++
        "1*DIGIT); no sign, no whitespace, no list").toList)
    else
      match Text.parseUnsigned (2 ^ 64 - 1) v with
      | some n =>
        if ctx.limits.maxBodyBytes < n then
          .error (.new 413 ("body is ".toList ++ Text.decimal n ++ " bytes, the limit is ".toList ++
            Text.decimal ctx.limits.maxBodyBytes))
        else .ok n
      | none =>
        .error (.new 400 "Content-Length does not fit in this platform's usize".toList)
  | none => .error (.new 411 "Content-Length is required (no chunked bodies)".toList)

/-- The content type in `validate_head`. -/
def checkContentType (head : RequestHead) : Except HttpFail Unit :=
  match head.header "content-type".toList with
  | some v =>
    let media := trim (v.takeWhile (· != ';'))
    if Text.toAsciiLowercase media = "application/json".toList then .ok ()
    else .error (.new 415 ("Content-Type must be application/json, got ".toList ++ debugText media ++
      (". A browser form cannot send application/json, so requiring it keeps a cross-origin form " ++
        "POST from reaching a method.").toList))
  | none => .error (.new 415 "Content-Type: application/json is required".toList)

/-- The token in `validate_head`. -/
def checkToken (head : RequestHead) (ctx : HttpContext) : Except HttpFail Unit :=
  match ctx.auth with
  | .loopbackNoToken => .ok ()
  | .bearerToken expected =>
    let supplied := (head.header "authorization".toList).getD []
    match (stripPrefix "Bearer ".toList supplied).or (stripPrefix "bearer ".toList supplied) with
    | none => .error (.new 401 ("this listener is not on loopback and requires `Authorization: " ++
        "Bearer <rpc.token>`").toList)
    | some token =>
      if constantTimeEq (Text.asBytes token) (Text.asBytes expected) then .ok ()
      else .error (.new 401 "bad bearer token".toList)

/-- `validate_head`: the content length, and whether the connection is kept alive. -/
def validateHead (head : RequestHead) (ctx : HttpContext) : Except HttpFail (Nat × Bool) :=
  if head.method ≠ "POST".toList then
    .error ⟨405, head.method ++ (" is not allowed; JSON-RPC is POST-only. There is no browsable " ++
      "interface here and no getblocktemplate.").toList, [("Allow".toList, "POST".toList)]⟩
  else if head.target ≠ ['/'] then
    .error (.new 404 ("no such endpoint ".toList ++ debugText head.target ++
      "; the only endpoint is POST /".toList))
  else if 1 < head.headerCount "host".toList then
    .error (.new 400 "more than one Host header; only the first would be consulted.".toList)
  else if 1 < head.headerCount "authorization".toList then
    .error (.new 400 "more than one Authorization header".toList)
  else do
    checkHost head ctx
    if (head.header "transfer-encoding".toList).isSome then
      .error (.new 501 "Transfer-Encoding is not implemented; send Content-Length.".toList)
    else if 1 < head.headerCount "content-length".toList then
      .error (.new 400 "more than one Content-Length header".toList)
    else do
      let n ← contentLength head ctx
      checkContentType head
      checkToken head ctx
      return (n, head.wantsKeepAlive)

/-! ## Bytes of a head -/

variable {c : Char} {l text : Text} {b : UInt8} {buf head x y z : Bytes} {prev : Option UInt8}
  {limits : HttpLimits} {n : Nat}

/-- The end of a line. -/
def crlf : Text := ['\r', '\n']

/-- A character of a line of a head. -/
def IsLineChar (c : Char) : Prop := c = '\t' ∨ 0x20 ≤ c.toNat ∧ c.toNat < 0x7f

/-- A line of a head. -/
def IsLine (l : Text) : Prop := ∀ c ∈ l, IsLineChar c

theorem IsLineChar.lt (h : IsLineChar c) : c.toNat < 128 := by
  rcases h with rfl | h
  · decide
  · omega

theorem IsLineChar.encode (h : IsLineChar c) : String.utf8EncodeChar c = [c.toUInt8] :=
  Text.encode_of_ascii h.lt

theorem toNat_toUInt8 (h : c.toNat < 128) : c.toUInt8.toNat = c.toNat :=
  UInt8.toNat_ofNat_of_lt' (h.trans (by decide))

theorem IsLineChar.ne_cr (h : IsLineChar c) : c ≠ '\r' := by
  rintro rfl
  rcases h with h | h
  · exact absurd h (by decide)
  · exact absurd h.1 (by decide)

theorem IsLineChar.byte_ne (h : IsLineChar c) : c.toUInt8 ≠ 0x0d ∧ c.toUInt8 ≠ 0x0a := by
  constructor
  all_goals
    intro heq
    have hnat := congrArg UInt8.toNat heq
    rw [toNat_toUInt8 h.lt] at hnat
    rcases h with rfl | h
    · exact absurd hnat (by decide)
    · exact absurd (hnat ▸ h.1) (by decide)

/-- The bytes that are taken by themselves are those of the characters of a line. -/
theorem badByte_eq_none {behind : Option UInt8} : badByte prev b behind = none ↔
    b = 0x0d ∧ behind = some 0x0a ∨ b = 0x0a ∧ prev = some 0x0d ∨
      ∃ c, IsLineChar c ∧ c.toUInt8 = b := by
  have hchar : (∃ c, IsLineChar c ∧ c.toUInt8 = b) ↔ b = 0x09 ∨ 0x20 ≤ b.toNat ∧ b.toNat < 0x7f := by
    constructor
    · rintro ⟨c, hc, rfl⟩
      rw [toNat_toUInt8 hc.lt]
      exact hc.imp (fun h ↦ by rw [h]; decide) id
    · rintro (rfl | h)
      · exact ⟨'\t', .inl rfl, by decide⟩
      · have hvalid : b.toNat.isValidChar := .inl (by omega)
        have hcode := Text.toNat_ofNat hvalid
        refine ⟨Char.ofNat b.toNat, .inr (hcode.symm ▸ h), UInt8.toNat_inj.mp ?_⟩
        rw [toNat_toUInt8 (by omega), hcode]
  rw [hchar]
  unfold badByte
  split
  case isTrue hcr =>
    subst hcr
    simp
  case isFalse hcr =>
    split
    case isTrue hlf =>
      subst hlf
      simp
    case isFalse hlf =>
      split
      case isTrue htab => simp [htab]
      case isFalse htab =>
        have hhigh : 0x80 ≤ b ↔ 0x80 ≤ b.toNat := UInt8.le_iff_toNat_le
        have hlow : b < 0x20 ↔ b.toNat < 0x20 := UInt8.lt_iff_toNat_lt
        have hdel : b = 0x7f ↔ b.toNat = 0x7f := UInt8.toNat_inj.symm
        simp only [hcr, hlf, htab, false_and, false_or, hhigh, hlow, hdel]
        split
        case isTrue h => exact iff_of_false nofun (by omega)
        case isFalse h =>
          split
          case isTrue h' => exact iff_of_false nofun (by omega)
          case isFalse h' => exact iff_of_true rfl (by omega)

theorem checkHead_cons (h : badByte prev b head.head? = none) :
    checkHead prev (b :: head) = checkHead (some b) head := by
  rw [checkHead, h]

/-- A line and its end are taken. -/
theorem checkHead_line (hl : IsLine l) (z : Bytes) :
    checkHead prev (Text.asBytes (l ++ crlf) ++ z) = checkHead (some 0x0a) z := by
  induction l generalizing prev with
  | nil =>
    show checkHead prev (0x0d :: 0x0a :: z) = _
    rw [checkHead_cons (badByte_eq_none.mpr (.inl ⟨rfl, rfl⟩)),
      checkHead_cons (badByte_eq_none.mpr (.inr (.inl ⟨rfl, rfl⟩)))]
  | cons c l ih =>
    obtain ⟨hc, hl⟩ := List.forall_mem_cons.mp hl
    rw [List.cons_append, Text.asBytes_cons, hc.encode, List.singleton_append, List.cons_append,
      checkHead_cons (badByte_eq_none.mpr (.inr (.inr ⟨c, hc, rfl⟩))), ih hl]

theorem checkHead_lines {ls : List Text} (h : ∀ l ∈ ls, IsLine l) :
    checkHead prev (Text.asBytes (ls.flatMap (· ++ crlf))) = .ok () := by
  induction ls generalizing prev with
  | nil => rfl
  | cons l ls ih =>
    obtain ⟨hl, hls⟩ := List.forall_mem_cons.mp h
    rw [List.flatMap_cons, Text.asBytes_append, checkHead_line hl, ih hls]

/-- What is taken is made of lines. -/
theorem lines_of_checkHead (h : checkHead prev head = .ok ()) (hprev : prev ≠ some 0x0d) :
    ∃ ls, ls ≠ [] ∧ (∀ l ∈ ls, IsLine l) ∧ head = Text.asBytes (crlf.intercalate ls) := by
  induction hlen : head.length using Nat.strong_induction_on generalizing prev head with
  | _ n ih =>
    subst hlen
    cases head with
    | nil => exact ⟨[[]], List.cons_ne_nil _ _, List.forall_mem_singleton.mpr nofun, rfl⟩
    | cons b head =>
      rw [checkHead] at h
      split at h
      case h_1 => cases h
      case h_2 hbad =>
        rcases badByte_eq_none.mp hbad with ⟨rfl, hbehind⟩ | ⟨-, hprev'⟩ | ⟨c, hc, rfl⟩
        · obtain ⟨head, rfl⟩ := List.head?_eq_some_iff.mp hbehind
          rw [checkHead_cons (badByte_eq_none.mpr (.inr (.inl ⟨rfl, rfl⟩)))] at h
          obtain ⟨ls, hne, hls, rfl⟩ := ih head.length (by simp only [List.length_cons]; omega) h (by decide) rfl
          refine ⟨[] :: ls, List.cons_ne_nil _ _, List.forall_mem_cons.mpr ⟨nofun, hls⟩, ?_⟩
          obtain ⟨l, ls, rfl⟩ := List.exists_cons_of_ne_nil hne
          rw [List.intercalate_cons_cons]
          rfl
        · exact absurd hprev' hprev
        · obtain ⟨ls, hne, hls, rfl⟩ :=
            ih _ (by simp) h (fun heq ↦ hc.byte_ne.1 (Option.some.inj heq)) rfl
          obtain ⟨l, ls, rfl⟩ := List.exists_cons_of_ne_nil hne
          obtain ⟨hl, hls⟩ := List.forall_mem_cons.mp hls
          refine ⟨(c :: l) :: ls, List.cons_ne_nil _ _,
            List.forall_mem_cons.mpr ⟨List.forall_mem_cons.mpr ⟨hc, hl⟩, hls⟩, ?_⟩
          have hcons : crlf.intercalate ((c :: l) :: ls) = c :: crlf.intercalate (l :: ls) := by
            cases ls with
            | nil => rfl
            | cons => rw [List.intercalate_cons_cons, List.intercalate_cons_cons]; rfl
          rw [hcons, Text.asBytes_cons, hc.encode]
          rfl

/-! ## The end of a head -/

theorem findHeadEnd_cons (h : ¬headMark <+: b :: buf) :
    findHeadEnd (b :: buf) = (findHeadEnd buf).map (· + 1) := by
  rw [findHeadEnd, if_neg h]

/-- A byte that is no carriage return is passed over. -/
theorem findHeadEnd_of_ne (h : b ≠ 0x0d) : findHeadEnd (b :: buf) = (findHeadEnd buf).map (· + 1) :=
  findHeadEnd_cons fun hpre ↦ h (List.cons_prefix_cons.mp hpre).1.symm

theorem findHeadEnd_mark (z : Bytes) : findHeadEnd (headMark ++ z) = some 4 := by
  exact if_pos (List.prefix_append headMark z)

theorem findHeadEnd_line (hl : IsLine l) :
    findHeadEnd (Text.asBytes l ++ z) = (findHeadEnd z).map (· + (Text.asBytes l).length) := by
  induction l with
  | nil => simp
  | cons c l ih =>
    obtain ⟨hc, hl⟩ := List.forall_mem_cons.mp hl
    rw [Text.asBytes_cons, hc.encode, List.singleton_append, List.cons_append,
      findHeadEnd_of_ne hc.byte_ne.1, ih hl, Option.map_map]
    rfl

/-- The end of a line is passed over where another line begins. -/
theorem findHeadEnd_crlf (h : z.head? ≠ some 0x0d) :
    findHeadEnd (Text.asBytes crlf ++ z) = (findHeadEnd z).map (· + 2) := by
  show findHeadEnd (0x0d :: 0x0a :: z) = _
  have hmark : ¬headMark <+: 0x0d :: 0x0a :: z := by
    rintro ⟨t, ht⟩
    refine h ?_
    rw [(List.cons.inj (List.cons.inj ht).2).2.symm]
    rfl
  rw [findHeadEnd_cons hmark, findHeadEnd_of_ne (by decide), Option.map_map]
  rfl

/-- The end is behind a mark. -/
theorem take_of_findHeadEnd (h : findHeadEnd buf = some n) :
    ∃ x, buf.take n = x ++ headMark ∧ n ≤ buf.length := by
  induction buf generalizing n with
  | nil => cases h
  | cons b buf ih =>
    rw [findHeadEnd] at h
    split at h
    case isTrue hmark =>
      cases h
      obtain ⟨t, ht⟩ := hmark
      exact ⟨[], by rw [← ht]; rfl, by rw [← ht]; simp [headMark]⟩
    case isFalse =>
      obtain ⟨m, hm, rfl⟩ := Option.map_eq_some_iff.mp h
      obtain ⟨x, hx, hle⟩ := ih hm
      exact ⟨b :: x, by rw [List.take_succ_cons, hx]; rfl, Nat.succ_le_succ hle⟩

/-- More input does not move the end. -/
theorem findHeadEnd_append (t : Bytes) (h : findHeadEnd buf = some n) :
    findHeadEnd (buf ++ t) = some n := by
  induction buf generalizing n with
  | nil => cases h
  | cons b buf ih =>
    rw [findHeadEnd] at h
    split at h
    case isTrue hmark =>
      rw [← h]
      exact if_pos (hmark.trans (List.prefix_append (b :: buf) t))
    case isFalse hmark =>
      obtain ⟨m, hm, rfl⟩ := Option.map_eq_some_iff.mp h
      obtain ⟨x, hx, hle⟩ := take_of_findHeadEnd hm
      have hlen := congrArg List.length hx
      rw [List.length_take, List.length_append, Nat.min_eq_left hle] at hlen
      have hshort : headMark.length ≤ (b :: buf).length := by
        rw [List.length_cons]
        omega
      have hmark' : ¬headMark <+: b :: (buf ++ t) := fun hpre ↦
        hmark (List.prefix_of_prefix_length_le hpre (List.prefix_append (b :: buf) t) hshort)
      rw [List.cons_append, findHeadEnd_cons hmark', ih hm]
      rfl

/-! ## Lines of a head -/

theorem splitCrlf_cons (h : c ≠ '\r') :
    splitCrlf (c :: text) = (splitCrlf text).modifyHead (c :: ·) := by
  rw [splitCrlf]
  rintro text' rfl
  exact absurd rfl h

theorem splitCrlf_line (hl : IsLine l) (text : Text) :
    splitCrlf (l ++ crlf ++ text) = l :: splitCrlf text := by
  induction l with
  | nil => rfl
  | cons c l ih =>
    obtain ⟨hc, hl⟩ := List.forall_mem_cons.mp hl
    rw [List.cons_append, List.cons_append, splitCrlf_cons hc.ne_cr, ih hl, List.modifyHead_cons]

theorem splitCrlf_intercalate {ls : List Text} (h : ∀ l ∈ ls, IsLine l) (hne : ls ≠ []) :
    splitCrlf (crlf.intercalate ls) = ls := by
  induction ls with
  | nil => exact absurd rfl hne
  | cons l ls ih =>
    obtain ⟨hl, hls⟩ := List.forall_mem_cons.mp h
    cases ls with
    | nil =>
      rw [List.intercalate_singleton]
      clear ih hls h
      induction l with
      | nil => rfl
      | cons c l ih =>
        obtain ⟨hc, hl⟩ := List.forall_mem_cons.mp hl
        rw [splitCrlf_cons hc.ne_cr, ih hl (List.cons_ne_nil _ _), List.modifyHead_cons]
    | cons l' ls =>
      rw [List.intercalate_cons_cons, splitCrlf_line hl, ih hls (List.cons_ne_nil _ _)]

/-- Lines with an end behind each, and more lines. -/
theorem intercalate_append (ls : List Text) {rest : List Text} (hne : rest ≠ []) :
    crlf.intercalate (ls ++ rest) = ls.flatMap (· ++ crlf) ++ crlf.intercalate rest := by
  induction ls with
  | nil => rfl
  | cons l ls ih =>
    obtain ⟨l', ls', hcons⟩ := List.exists_cons_of_ne_nil (List.append_ne_nil_of_right_ne_nil ls hne)
    rw [List.flatMap_cons, List.append_assoc, ← ih, List.cons_append, hcons,
      List.intercalate_cons_cons]

/-! ## The first line -/

variable {method target : Text} {http11 : Bool}

/-- A version. -/
def httpVersion (http11 : Bool) : Text :=
  if http11 then "HTTP/1.1".toList else "HTTP/1.0".toList

theorem isLine_httpVersion (http11 : Bool) : IsLine (httpVersion http11) ∧ ' ' ∉ httpVersion http11 := by
  have hall : ∀ c ∈ httpVersion http11, (0x20 ≤ c.toNat ∧ c.toNat < 0x7f) ∧ c ≠ ' ' := by
    cases http11 <;> simp [httpVersion]
  exact ⟨fun c hc ↦ .inr (hall c hc).1, fun hmem ↦ (hall _ hmem).2 rfl⟩

/-- A first line. -/
def requestLine (method target : Text) (http11 : Bool) : Text :=
  [' '].intercalate [method, target, httpVersion http11]

theorem notMem_of_mem_splitOn {sep : Char} (h : l ∈ text.splitOn sep) : sep ∉ l := by
  induction text generalizing l with
  | nil =>
    rw [List.splitOn_nil, List.mem_singleton] at h
    rw [h]
    exact List.not_mem_nil
  | cons c text ih =>
    rw [List.splitOn_cons_eq_if_modifyHead] at h
    split at h
    case isTrue =>
      rcases List.mem_cons.mp h with rfl | h
      · exact List.not_mem_nil
      · exact ih h
    case isFalse hc =>
      obtain ⟨l', rest, hsplit⟩ := List.exists_cons_of_ne_nil (List.splitOn_ne_nil sep text)
      rw [hsplit] at h ih
      rcases List.mem_cons.mp h with rfl | h
      · rintro hmem
        rcases List.mem_cons.mp hmem with heq | hmem
        · exact hc (beq_iff_eq.mpr heq.symm)
        · exact ih List.mem_cons_self hmem
      · exact ih (List.mem_cons_of_mem _ h)

theorem parseRequestLine_eq_ok : parseRequestLine l = .ok (method, target, http11) ↔
    l = requestLine method target http11 ∧ ' ' ∉ method ∧ ' ' ∉ target := by
  have hjoin : [' '].intercalate (l.splitOn ' ') = l := List.intercalate_splitOn ' '
  constructor
  · intro h
    unfold parseRequestLine at h
    split at h
    case h_1 method' target' version hsplit =>
      have hmem (s : Text) (hs : s ∈ [method', target', version]) : ' ' ∉ s :=
        notMem_of_mem_splitOn (hsplit ▸ hs)
      rw [hsplit] at hjoin
      split at h
      case isTrue hv =>
        cases h
        rw [hv] at hjoin
        exact ⟨hjoin.symm, hmem _ (by simp), hmem _ (by simp)⟩
      case isFalse =>
        split at h
        case isTrue hv =>
          cases h
          rw [hv] at hjoin
          exact ⟨hjoin.symm, hmem _ (by simp), hmem _ (by simp)⟩
        case isFalse => cases h
    case h_2 => cases h
  · rintro ⟨rfl, hmethod, htarget⟩
    have hsplit : (requestLine method target http11).splitOn ' ' =
        [method, target, httpVersion http11] := by
      refine List.splitOn_intercalate ' ' ?_ (List.cons_ne_nil _ _)
      rintro s hs
      simp only [List.mem_cons, List.not_mem_nil, or_false] at hs
      rcases hs with rfl | rfl | rfl
      · exact hmethod
      · exact htarget
      · exact (isLine_httpVersion http11).2
    unfold parseRequestLine
    rw [hsplit]
    cases http11 <;> rfl

/-! ## Headers -/

/-- A name and what stands behind the colon, as they are written. -/
structure IsField (f : Text × Text) : Prop where
  name : f.1 ≠ []
  tchar : ∀ c ∈ f.1, isTchar c = true
  value : IsLine f.2

/-- The line of a field. -/
def fieldLine (f : Text × Text) : Text := f.1 ++ ':' :: f.2

/-- What is kept of a field. -/
def fieldHeader (f : Text × Text) : Text × Text := (Text.toAsciiLowercase f.1, trim f.2)

theorem isLineChar_of_isTchar (h : isTchar c = true) : IsLineChar c ∧ c ≠ ':' ∧ c ≠ ' ' ∧ c ≠ '\t' := by
  unfold isTchar at h
  rw [Bool.or_eq_true] at h
  rcases h with h | h
  · have hcode : 0x30 ≤ c.toNat ∧ c.toNat ≤ 0x39 ∨ 0x41 ≤ c.toNat ∧ c.toNat ≤ 0x7a := by
      delta Char.isAlphanum Char.isAlpha Char.isUpper Char.isLower Char.isDigit at h
      simp only [Bool.or_eq_true, Bool.and_eq_true, decide_eq_true_eq, ge_iff_le, UInt32.le_iff_toNat_le] at h
      have hlit : 'A'.val.toNat = 0x41 ∧ 'Z'.val.toNat = 0x5a ∧ 'a'.val.toNat = 0x61 ∧
          'z'.val.toNat = 0x7a ∧ '0'.val.toNat = 0x30 ∧ '9'.val.toNat = 0x39 := by decide
      have hcode : c.toNat = c.val.toNat := rfl
      rw [hcode]
      omega
    have hne (d : Char) (hd : d.toNat < 0x30 ∨ d.toNat = 0x3a) : c ≠ d := by
      rintro rfl
      omega
    exact ⟨.inr (by omega), hne _ (by decide), hne _ (by decide), hne _ (by decide)⟩
  · have hall : ∀ c ∈ "!#$%&'*+-.^_`|~".toList,
        (0x20 ≤ c.toNat ∧ c.toNat < 0x7f) ∧ c ≠ ':' ∧ c ≠ ' ' ∧ c ≠ '\t' := by simp
    obtain ⟨hcode, hne⟩ := hall c (List.contains_iff_mem.mp h)
    exact ⟨.inr hcode, hne⟩

theorem IsField.isLine {f : Text × Text} (h : IsField f) : IsLine (fieldLine f) := by
  intro c hc
  rcases List.mem_append.mp hc with hc | hc
  · exact (isLineChar_of_isTchar (h.tchar c hc)).1
  · rcases List.mem_cons.mp hc with rfl | hc
    · exact .inr (by decide)
    · exact h.value c hc

theorem fieldLine_ne_nil (f : Text × Text) : fieldLine f ≠ [] :=
  List.append_ne_nil_of_right_ne_nil _ (List.cons_ne_nil _ _)

theorem parseHeader_eq_ok {h : Text × Text} (hl : IsLine l) :
    parseHeader l = .ok h ↔ ∃ f, IsField f ∧ l = fieldLine f ∧ h = fieldHeader f := by
  constructor
  · intro hok
    unfold parseHeader at hok
    split at hok
    case isTrue => cases hok
    case isFalse =>
      split at hok
      case h_1 => cases hok
      case h_2 name value hsplit =>
        obtain ⟨rfl, -⟩ := Text.splitOnce_eq_some.mp hsplit
        split at hok
        case isTrue => cases hok
        case isFalse hname =>
          split at hok
          case isTrue => cases hok
          case isFalse htchar =>
            cases hok
            refine ⟨(name, value), ⟨(not_or.mp hname).1, ?_, ?_⟩, rfl, rfl⟩
            · exact List.all_eq_true.mp (not_not.mp htchar)
            · exact fun c hc ↦ hl c (List.mem_append_right _ (List.mem_cons_of_mem _ hc))
  · rintro ⟨⟨name, value⟩, ⟨hne, htchar, -⟩, rfl, rfl⟩
    dsimp only at hne htchar
    have hchar (c : Char) (hc : c ∈ name) := (isLineChar_of_isTchar (htchar c hc)).2
    have hhead (d : Char) (hd : d = ' ' ∨ d = '\t') : (fieldLine (name, value)).head? ≠ some d := by
      obtain ⟨c, name, rfl⟩ := List.exists_cons_of_ne_nil hne
      intro heq
      obtain rfl := Option.some.inj heq
      obtain ⟨-, hspace, htab⟩ := hchar _ List.mem_cons_self
      exact hd.elim hspace htab
    have hlast (d : Char) (hd : d = ' ' ∨ d = '\t') : name.getLast? ≠ some d := by
      intro heq
      obtain ⟨-, hspace, htab⟩ := hchar d (List.mem_of_getLast? heq)
      exact hd.elim hspace htab
    have hsplit : Text.splitOnce ':' (fieldLine (name, value)) = some (name, value) :=
      Text.splitOnce_eq_some.mpr ⟨rfl, fun hmem ↦ (hchar _ hmem).1 rfl⟩
    unfold parseHeader
    rw [if_neg (not_or.mpr ⟨hhead _ (.inl rfl), hhead _ (.inr rfl)⟩), hsplit]
    dsimp only
    rw [if_neg (not_or.mpr ⟨hne, not_or.mpr ⟨hlast _ (.inl rfl), hlast _ (.inr rfl)⟩⟩),
      if_neg (not_not.mpr (List.all_eq_true.mpr htchar))]
    rfl

/-- The headers are those of the lines before the first empty line. -/
theorem readHeaders_eq_ok {headers hs : List (Text × Text)} {ls : List Text}
    (hls : ∀ l ∈ ls, IsLine l) : readHeaders limits headers ls = .ok hs ↔
      ∃ fields rest, (∀ f ∈ fields, IsField f) ∧ ls = fields.map fieldLine ++ rest ∧
        (rest = [] ∨ ∃ r, rest = [] :: r) ∧ hs = headers ++ fields.map fieldHeader ∧
        (fields = [] ∨ headers.length + fields.length ≤ limits.maxHeaders) := by
  induction ls generalizing headers with
  | nil =>
    rw [readHeaders]
    constructor
    · rintro ⟨⟩
      exact ⟨[], [], nofun, rfl, .inl rfl, (List.append_nil _).symm, .inl rfl⟩
    · rintro ⟨fields, rest, -, hnil, -, rfl, -⟩
      obtain ⟨hmap, -⟩ := List.append_eq_nil_iff.mp hnil.symm
      rw [List.map_eq_nil_iff.mp hmap]
      simp
  | cons l ls ih =>
    obtain ⟨hl, hrest⟩ := List.forall_mem_cons.mp hls
    rw [readHeaders]
    constructor
    · intro h
      split at h
      case isTrue hnil =>
        cases h
        exact ⟨[], l :: ls, nofun, rfl, .inr ⟨ls, by rw [hnil]⟩, (List.append_nil _).symm, .inl rfl⟩
      case isFalse =>
        split at h
        case isTrue => cases h
        case isFalse hroom =>
          split at h
          case h_1 => cases h
          case h_2 header hheader =>
            obtain ⟨f, hf, rfl, rfl⟩ := (parseHeader_eq_ok hl).mp hheader
            obtain ⟨fields, rest, hfields, rfl, hends, rfl, hlen⟩ := (ih hrest).mp h
            refine ⟨f :: fields, rest, List.forall_mem_cons.mpr ⟨hf, hfields⟩, rfl, hends, ?_, .inr ?_⟩
            · rw [List.append_assoc]
              rfl
            · rw [List.length_append, List.length_singleton] at hlen
              rcases hlen with rfl | hlen
              · exact Nat.le_of_not_lt hroom
              · rw [List.length_cons]
                omega
    · rintro ⟨fields, rest, hfields, heq, hends, rfl, hlen⟩
      cases fields with
      | nil =>
        rcases hends with rfl | ⟨r, rfl⟩
        · cases heq
        · obtain ⟨rfl, rfl⟩ := List.cons.inj heq
          rw [if_pos rfl, List.map_nil, List.append_nil]
      | cons f fields =>
        obtain ⟨rfl, rfl⟩ := List.cons.inj heq
        obtain ⟨hf, hfields⟩ := List.forall_mem_cons.mp hfields
        rw [List.length_cons] at hlen
        simp only [reduceCtorEq, false_or] at hlen
        rw [if_neg (fieldLine_ne_nil f), if_neg (by omega),
          (parseHeader_eq_ok hf.isLine).mpr ⟨f, hf, rfl, rfl⟩]
        refine (ih hrest).mpr ⟨fields, rest, hfields, rfl, hends, ?_, .inr ?_⟩
        · rw [List.append_assoc]
          rfl
        · rw [List.length_append, List.length_singleton]
          omega

/-! ## Heads that are read -/

/-- A head as it is written. -/
structure HeadText where
  method : Text
  target : Text
  http11 : Bool
  fields : List (Text × Text)

namespace HeadText

variable (t : HeadText)

/-- The lines of a head, before the empty one. -/
def lines : List Text := requestLine t.method t.target t.http11 :: t.fields.map fieldLine

/-- The bytes of a head. -/
def bytes : Bytes := Text.asBytes ((t.lines ++ [[]]).flatMap (· ++ crlf))

/-- What a head is read as. -/
def requestHead : RequestHead where
  method := t.method.map Char.toUpper
  target := t.target
  http11 := t.http11
  headers := t.fields.map fieldHeader
  headLen := t.bytes.length

/-- The parts of a head are of one line, and what stands between blanks has none. -/
structure WellFormed : Prop where
  method : IsLine t.method ∧ ' ' ∉ t.method
  target : IsLine t.target ∧ ' ' ∉ t.target
  fields : ∀ f ∈ t.fields, IsField f

variable {t}

theorem isLine_requestLine (hm : IsLine method) (ht : IsLine target) :
    IsLine (requestLine method target http11) := by
  have hline : requestLine method target http11 =
      method ++ ' ' :: (target ++ ' ' :: httpVersion http11) := by
    simp only [requestLine, List.intercalate_cons_cons, List.intercalate_singleton,
      List.append_assoc, List.singleton_append]
  have hspace : IsLineChar ' ' := .inr (by decide)
  intro c hc
  rw [hline] at hc
  rcases List.mem_append.mp hc with hc | hc
  · exact hm c hc
  · rcases List.mem_cons.mp hc with rfl | hc
    · exact hspace
    · rcases List.mem_append.mp hc with hc | hc
      · exact ht c hc
      · rcases List.mem_cons.mp hc with rfl | hc
        · exact hspace
        · exact (isLine_httpVersion http11).1 c hc

theorem requestLine_ne_nil : requestLine method target http11 ≠ [] := by
  rw [requestLine, List.intercalate_cons_cons, List.append_assoc]
  exact List.append_ne_nil_of_right_ne_nil _ (List.cons_ne_nil _ _)

theorem WellFormed.lines (h : t.WellFormed) : ∀ l ∈ t.lines, IsLine l ∧ l ≠ [] := by
  rintro l hl
  rcases List.mem_cons.mp hl with rfl | hl
  · exact ⟨isLine_requestLine h.method.1 h.target.1, requestLine_ne_nil⟩
  · obtain ⟨f, hf, rfl⟩ := List.mem_map.mp hl
    exact ⟨(h.fields f hf).isLine, fieldLine_ne_nil f⟩

/-- The head of lines ends where the lines end. -/
theorem findHeadEnd_lines {ls : List Text} (h : ∀ l ∈ ls, IsLine l ∧ l ≠ []) (hne : ls ≠ [])
    (z : Bytes) : findHeadEnd (Text.asBytes ((ls ++ [[]]).flatMap (· ++ crlf)) ++ z) =
      some (Text.asBytes ((ls ++ [[]]).flatMap (· ++ crlf))).length := by
  induction ls with
  | nil => exact absurd rfl hne
  | cons l ls ih =>
    obtain ⟨⟨hl, -⟩, hls⟩ := List.forall_mem_cons.mp h
    have hcrlf : (Text.asBytes crlf).length = 2 := rfl
    rw [List.cons_append, List.flatMap_cons, Text.asBytes_append, Text.asBytes_append, List.append_assoc,
      List.append_assoc, findHeadEnd_line hl]
    cases ls with
    | nil =>
      have hmark := findHeadEnd_mark z
      show (findHeadEnd (headMark ++ z)).map _ = _
      rw [hmark]
      rw [Option.map_some, List.length_append, List.length_append, hcrlf, Nat.add_comm, Nat.add_assoc]
      rfl
    | cons l' ls =>
      obtain ⟨⟨hl', hne'⟩, -⟩ := List.forall_mem_cons.mp hls
      rw [findHeadEnd_crlf, ih hls (List.cons_ne_nil _ _)]
      · rw [Option.map_some, Option.map_some, List.length_append, List.length_append, hcrlf,
          Nat.add_comm, Nat.add_comm _ 2, Nat.add_assoc]
      · obtain ⟨c, l', rfl⟩ := List.exists_cons_of_ne_nil hne'
        obtain ⟨hc, -⟩ := List.forall_mem_cons.mp hl'
        rw [List.cons_append, List.flatMap_cons, Text.asBytes_append, List.cons_append, Text.asBytes_cons,
          hc.encode]
        intro heq
        exact hc.byte_ne.1 (Option.some.inj heq)

theorem WellFormed.findHeadEnd (h : t.WellFormed) (z : Bytes) :
    findHeadEnd (t.bytes ++ z) = some t.bytes.length :=
  findHeadEnd_lines h.lines (List.cons_ne_nil _ _) z

theorem bytes_eq (t : HeadText) :
    t.bytes = Text.asBytes (crlf.intercalate (t.lines ++ [[], []])) := by
  rw [List.append_cons, intercalate_append _ (List.cons_ne_nil _ _), List.intercalate_singleton,
    List.append_nil]
  rfl

/-- A head is read back from its bytes. -/
theorem WellFormed.decodeHead (h : t.WellFormed) (hmax : t.fields.length ≤ limits.maxHeaders) :
    decodeHead t.bytes limits = .ok t.requestHead := by
  have hempty : ∀ l ∈ [[], ([] : Text)], IsLine l := by simp [IsLine]
  have hlines : ∀ l ∈ t.lines ++ [[], []], IsLine l :=
    List.forall_mem_append.mpr ⟨fun l hl ↦ (h.lines l hl).1, hempty⟩
  have hcheck : checkHead none t.bytes = .ok () := by
    refine checkHead_lines (List.forall_mem_append.mpr ⟨fun l hl ↦ (h.lines l hl).1, ?_⟩)
    simp [IsLine]
  have htail : ∀ l ∈ t.fields.map fieldLine ++ [[], []], IsLine l := fun l hl ↦
    hlines l (List.mem_cons_of_mem _ hl)
  have hsplit : splitCrlf (crlf.intercalate (t.lines ++ [[], []])) = t.lines ++ [[], []] :=
    splitCrlf_intercalate hlines (by simp)
  have hheaders : readHeaders limits [] (t.fields.map fieldLine ++ [[], []]) =
      .ok (t.fields.map fieldHeader) := by
    refine (readHeaders_eq_ok htail).mpr ⟨_, _, h.fields, rfl, .inr ⟨_, rfl⟩, rfl, .inr ?_⟩
    rw [List.length_nil, Nat.zero_add]
    exact hmax
  have hline : parseRequestLine (requestLine t.method t.target t.http11) = _ :=
    parseRequestLine_eq_ok.mpr ⟨rfl, h.method.2, h.target.2⟩
  have hparse : parseHead (crlf.intercalate (t.lines ++ [[], []])) t.bytes.length limits =
      .ok t.requestHead := by
    unfold parseHead
    rw [hsplit]
    show (do let r ← parseRequestLine (requestLine t.method t.target t.http11); _) = _
    rw [hline, Except.ok_bind]
    show (do let headers ← readHeaders limits [] (t.fields.map fieldLine ++ [[], []]); _) = _
    rw [hheaders, Except.ok_bind]
    rfl
  unfold Rpc.decodeHead
  rw [hcheck, Except.ok_bind]
  have htext : Text.fromUtf8 t.bytes = some (crlf.intercalate (t.lines ++ [[], []])) := by
    rw [bytes_eq]
    exact Text.fromUtf8_asBytes
  rw [htext]
  exact hparse

end HeadText

/-- The text that was read, up to the first empty line. -/
theorem lines_of_decodeHead {h : RequestHead} (hok : decodeHead head limits = .ok h) :
    ∃ t : HeadText, t.WellFormed ∧ t.fields.length ≤ limits.maxHeaders ∧
      h = { t.requestHead with headLen := head.length } ∧ ∃ rest, (rest = [] ∨ ∃ r, rest = [] :: r) ∧
        head = Text.asBytes (crlf.intercalate (t.lines ++ rest)) := by
  unfold decodeHead at hok
  obtain ⟨⟨⟩, hcheck, hok⟩ := Except.bind_eq_ok.mp hok
  obtain ⟨ls, hne, hls, rfl⟩ := lines_of_checkHead hcheck nofun
  rw [Text.fromUtf8_asBytes] at hok
  dsimp only at hok
  unfold parseHead at hok
  rw [splitCrlf_intercalate hls hne] at hok
  obtain ⟨l, ls, rfl⟩ := List.exists_cons_of_ne_nil hne
  obtain ⟨⟨method, target, http11⟩, hline, hok⟩ := Except.bind_eq_ok.mp hok
  obtain ⟨hs, hheaders, hok⟩ := Except.bind_eq_ok.mp hok
  cases hok
  obtain ⟨hl, hlines⟩ := List.forall_mem_cons.mp hls
  obtain ⟨rfl, hmethod, htarget⟩ := parseRequestLine_eq_ok.mp hline
  obtain ⟨fields, rest, hfields, rfl, hrest, rfl, hlen⟩ := (readHeaders_eq_ok hlines).mp hheaders
  have hpart : IsLine method ∧ IsLine target := by
    rw [requestLine, List.intercalate_cons_cons, List.intercalate_cons_cons] at hl
    refine ⟨fun c hc ↦ hl c ?_, fun c hc ↦ hl c ?_⟩ <;> simp [hc]
  refine ⟨⟨method, target, http11, fields⟩, ⟨⟨hpart.1, hmethod⟩, ⟨hpart.2, htarget⟩, hfields⟩, ?_,
    rfl, rest, hrest, rfl⟩
  rcases hlen with rfl | hlen
  · exact Nat.zero_le _
  · rwa [List.length_nil, Nat.zero_add] at hlen

/-- A text of lines that are not empty does not end a head. -/
theorem exists_empty_line {ls rest : List Text} (hls : ∀ l ∈ ls, IsLine l ∧ l ≠ []) (hne : ls ≠ [])
    (hrest : rest = [] ∨ ∃ r, rest = [] :: r)
    (hmark : Text.asBytes (crlf.intercalate (ls ++ rest)) = x ++ headMark) :
    ∃ l r, rest = [] :: l :: r := by
  -- the last byte of a line is no newline
  obtain ⟨ls, l, rfl⟩ := (List.eq_nil_or_concat' ls).resolve_left hne
  obtain ⟨hl, hl'⟩ := hls l (by simp)
  obtain ⟨l, c, rfl⟩ := (List.eq_nil_or_concat' l).resolve_left hl'
  have hc := hl c (by simp)
  have hlast : Text.asBytes [c] = [c.toUInt8] := by
    rw [Text.asBytes_cons, hc.encode]
    rfl
  rcases hrest with rfl | ⟨r, rfl⟩
  · rw [List.append_nil, intercalate_append _ (List.cons_ne_nil _ _), List.intercalate_singleton,
      ← List.append_assoc, Text.asBytes_append, hlast] at hmark
    have hend : x ++ headMark = (x ++ [0x0d, 0x0a, 0x0d]) ++ [0x0a] := by simp [headMark]
    rw [hend] at hmark
    exact absurd (List.singleton_inj.mp (List.append_inj_right' hmark rfl)) hc.byte_ne.2
  · cases r with
    | cons l' r => exact ⟨l', r, rfl⟩
    | nil =>
      have htext : crlf.intercalate (ls ++ [l ++ [c]] ++ [[]]) =
          ls.flatMap (· ++ crlf) ++ l ++ [c] ++ crlf := by
        rw [intercalate_append _ (List.cons_ne_nil _ _)]
        simp
      have hend : x ++ headMark = (x ++ [0x0d] ++ [0x0a]) ++ Text.asBytes crlf := by
        rw [List.append_assoc, List.append_assoc]
        rfl
      rw [htext, Text.asBytes_append, hend] at hmark
      have hmark := List.append_inj_left' hmark rfl
      rw [Text.asBytes_append, hlast] at hmark
      exact absurd (List.singleton_inj.mp (List.append_inj_right' hmark rfl)) hc.byte_ne.2

/-- A head is read as the text it is, with any bytes behind it, and nothing else is read as a head. -/
theorem readHead_eq_done {h : RequestHead} : readHead buf limits = .done h ↔
    ∃ t : HeadText, t.WellFormed ∧ t.fields.length ≤ limits.maxHeaders ∧
      t.bytes.length ≤ limits.maxHeadBytes ∧ t.bytes <+: buf ∧ h = t.requestHead := by
  unfold readHead
  constructor
  · intro hdone
    split at hdone
    case h_1 => split at hdone <;> cases hdone
    case h_2 stop hstop =>
      split at hdone
      case isTrue => cases hdone
      case isFalse hmax =>
        split at hdone
        case h_2 => cases hdone
        case h_1 h' hok =>
          cases hdone
          obtain ⟨t, hwf, hfields, rfl, rest, hrest, htext⟩ := lines_of_decodeHead hok
          obtain ⟨x, hx, hle⟩ := take_of_findHeadEnd hstop
          obtain ⟨l, r, rfl⟩ := exists_empty_line hwf.lines (List.cons_ne_nil _ _) hrest
            (htext.symm.trans hx)
          have hpre : t.bytes <+: buf.take stop := by
            rw [htext, List.append_cons, intercalate_append _ (List.cons_ne_nil _ _),
              Text.asBytes_append]
            exact List.prefix_append _ _
          obtain ⟨z, hz⟩ := hpre.trans (List.take_prefix stop buf)
          have hend := hwf.findHeadEnd z
          rw [hz, hstop] at hend
          have hlen : stop = t.bytes.length := Option.some.inj hend
          refine ⟨t, hwf, hfields, hlen ▸ Nat.le_of_not_lt hmax, ⟨z, hz⟩, ?_⟩
          rw [List.length_take, Nat.min_eq_left hle, hlen]
          rfl
  · rintro ⟨t, hwf, hfields, hmax, ⟨z, rfl⟩, rfl⟩
    rw [hwf.findHeadEnd z]
    dsimp only
    rw [if_neg (Nat.not_lt.mpr hmax), List.take_left, hwf.decodeHead hfields]

end Plaine.Rpc
