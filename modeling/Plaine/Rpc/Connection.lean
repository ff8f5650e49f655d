import Plaine.Rpc.Http

/-!
# Connections

`serve_connection` of `rpc/src/server.rs` and the responses of `http.rs`.  A connection is kept
between two reads: the bytes that were read and not used, what it waits for, and the requests it has
answered.  What is done with a body is any function on a state.  The clock, the flag that shuts the
server down and its counters are left out; a read may come too late.
-/

namespace Plaine.Rpc

open Plaine.Lib

/-! ## Responses -/

/-- `reason_phrase`. -/
def reasonPhrase (status : Nat) : Text :=
  match status with
  | 200 => "OK".toList
  | 204 => "No Content".toList
  | 400 => "Bad Request".toList
  | 401 => "Unauthorized".toList
  | 403 => "Forbidden".toList
  | 404 => "Not Found".toList
  | 405 => "Method Not Allowed".toList
  | 408 => "Request Timeout".toList
  | 411 => "Length Required".toList
  | 413 => "Payload Too Large".toList
  | 415 => "Unsupported Media Type".toList
  | 429 => "Too Many Requests".toList
  | 431 => "Request Header Fields Too Large".toList
  | 500 => "Internal Server Error".toList
  | 501 => "Not Implemented".toList
  | 503 => "Service Unavailable".toList
  | 505 => "HTTP Version Not Supported".toList
  | _ => "Error".toList

/-- `HttpResponse`. -/
structure HttpResponse where
  status : Nat
  body : Bytes
  keepAlive : Bool
  extraHeaders : List (Text × Text)
deriving DecidableEq

namespace HttpResponse

/-- `HttpResponse::ok_json`. -/
def okJson (body : Bytes) (keepAlive : Bool) : HttpResponse where
  status := 200
  body := body
  keepAlive := keepAlive
  extraHeaders := []

/-- `HttpResponse::no_content`. -/
def noContent (keepAlive : Bool) : HttpResponse where
  status := 204
  body := []
  keepAlive := keepAlive
  extraHeaders := []

/-- `HttpResponse::from_fail`. -/
def fromFail (fail : HttpFail) : HttpResponse where
  status := fail.status
  body := Text.asBytes (write (.obj [
    ("error".toList, .str (reasonPhrase fail.status)),
    ("status".toList, .num (Int64.ofNat fail.status)),
    ("detail".toList, .str fail.detail)]))
  keepAlive := false
  extraHeaders := fail.extraHeaders

/-- `HttpResponse::to_bytes`. -/
def toBytes (r : HttpResponse) : Bytes :=
  Text.asBytes ("HTTP/1.1 ".toList ++ Text.decimal r.status ++ ' ' :: reasonPhrase r.status ++ crlf ++
    "Content-Type: application/json".toList ++ crlf ++
    "Content-Length: ".toList ++ Text.decimal r.body.length ++ crlf ++
    "X-Content-Type-Options: nosniff".toList ++ crlf ++
    (if r.keepAlive then "Connection: keep-alive".toList else "Connection: close".toList) ++ crlf ++
    r.extraHeaders.flatMap (fun h ↦ h.1 ++ ':' :: ' ' :: h.2 ++ crlf) ++ crlf) ++ r.body

end HttpResponse

/-- `timeout_fail`. -/
def timeoutFail (budgetMillis : Nat) : HttpFail :=
  .new 408 ("the whole request must arrive within ".toList ++ Text.decimal budgetMillis ++
    (" ms of its first byte; that budget expired with the request incomplete. Send the request, " ++
      "then read the response.").toList)

/-! ## The loop of a connection -/

/-- What a connection waits for. -/
inductive Stage where
  | head
  | body (contentLength : Nat) (keepAlive : Bool)
deriving DecidableEq

/-- A connection between two reads. -/
structure Conn where
  buf : Bytes
  stage : Stage
  requests : Nat
deriving DecidableEq

/-- `ReadOutcome`, or a deadline that was over before the read. -/
inductive ReadOutcome where
  | bytes (chunk : Bytes)
  | eof
  | timedOut
  | broken
  | expired
deriving DecidableEq

variable {σ : Type} (handle : σ → Bytes → σ × Option Bytes) (ctx : HttpContext)

/-- The response to a body. -/
def respond (answer : Option Bytes) (keepAlive : Bool) : HttpResponse :=
  match answer with
  | some bytes => .okJson bytes keepAlive
  | none => .noContent keepAlive

/-- A head that is read is not empty. -/
theorem readHead_headLen {buf : Bytes} {limits : HttpLimits} {head : RequestHead}
    (h : readHead buf limits = .done head) : 0 < head.headLen ∧ head.headLen ≤ buf.length := by
  obtain ⟨t, -, -, -, hpre, rfl⟩ := readHead_eq_done.mp h
  refine ⟨?_, hpre.length_le⟩
  show 0 < (Text.asBytes _).length
  rw [List.flatMap_append, Text.asBytes_append, List.length_append]
  exact Nat.add_pos_right _ (by decide)

/-- What is left to do for a connection. -/
def Conn.rank (c : Conn) : Nat := 2 * c.buf.length + match c.stage with
  | .head => 0
  | .body _ _ => 1

/-- What `serve_connection` does between two reads: the responses it writes, and the connection if it
goes on. -/
def settle (s : σ) : Conn → σ × List HttpResponse × Option Conn
  | ⟨buf, .head, requests⟩ =>
    if ctx.limits.maxRequestsPerConn ≤ requests then (s, [], none)
    else
      match h : readHead buf ctx.limits with
      | .needMore => (s, [], some ⟨buf, .head, requests⟩)
      | .fail fail => (s, [.fromFail fail], none)
      | .done head =>
        have := readHead_headLen h
        match validateHead head ctx with
        | .error fail => (s, [.fromFail fail], none)
        | .ok (n, keepAlive) => settle s ⟨buf.drop head.headLen, .body n keepAlive, requests⟩
  | ⟨buf, .body n keepAlive, requests⟩ =>
    if buf.length < n then (s, [], some ⟨buf, .body n keepAlive, requests⟩)
    else
      let (s, answer) := handle s (buf.take n)
      if keepAlive then
        let (s, out, c) := settle s ⟨buf.drop n, .head, requests + 1⟩
        (s, respond answer keepAlive :: out, c)
      else (s, [respond answer keepAlive], none)
termination_by c => c.rank
decreasing_by
  all_goals
    simp only [Conn.rank, List.length_drop]
    omega

/-- What `serve_connection` does with what a read returns. -/
def onRead (budgetMillis : Nat) (s : σ) (c : Conn) : ReadOutcome → σ × List HttpResponse × Option Conn
  | .bytes chunk => settle handle ctx s { c with buf := c.buf ++ chunk }
  | .eof | .broken => (s, [], none)
  | .timedOut =>
    if c.stage = .head ∧ c.buf = [] then (s, [], none)
    else (s, [.fromFail (timeoutFail budgetMillis)], none)
  | .expired => (s, [.fromFail (timeoutFail budgetMillis)], none)

/-- The reads of a connection, up to the one that ends it. -/
def serveReads (budgetMillis : Nat) (s : σ) : Option Conn → List ReadOutcome → σ × List HttpResponse
  | none, _ | some _, [] => (s, [])
  | some c, read :: reads =>
    let (s, out, c) := onRead handle ctx budgetMillis s c read
    let (s, out') := serveReads budgetMillis s c reads
    (s, out ++ out')

/-- `serve_connection`. -/
def serveConnection (budgetMillis : Nat) (s : σ) (reads : List ReadOutcome) : σ × List HttpResponse :=
  let (s, out, c) := settle handle ctx s ⟨[], .head, 0⟩
  let (s, out') := serveReads handle ctx budgetMillis s c reads
  (s, out ++ out')

/-! ## Reads that are cut -/

variable {handle : σ → Bytes → σ × Option Bytes} {ctx : HttpContext} {s : σ} {c : Conn}
  {buf : Bytes} {limits : HttpLimits} {fail : HttpFail}

/-- A response, but for the text that tells how much of a head there was when it was found too long. -/
def HttpResponse.kind (r : HttpResponse) : HttpResponse := if r.status = 431 then { r with body := [] } else r

theorem findHeadEnd_of_append {t : Bytes} {n : Nat} (h : findHeadEnd (buf ++ t) = some n)
    (hn : n ≤ buf.length) : findHeadEnd buf = some n := by
  induction buf generalizing n with
  | nil =>
    obtain ⟨x, hx, -⟩ := take_of_findHeadEnd h
    rw [Nat.le_zero.mp hn, List.take_zero] at hx
    exact absurd hx.symm (List.append_ne_nil_of_right_ne_nil _ (List.cons_ne_nil _ _))
  | cons b buf ih =>
    rw [List.cons_append, findHeadEnd] at h
    rw [findHeadEnd]
    split at h
    case isTrue hmark =>
      cases h
      rw [if_pos (List.prefix_of_prefix_length_le hmark (List.prefix_append (b :: buf) t) hn)]
    case isFalse hmark =>
      obtain ⟨m, hm, rfl⟩ := Option.map_eq_some_iff.mp h
      rw [if_neg fun hpre ↦ hmark (hpre.trans (List.prefix_append (b :: buf) t)),
        ih hm (Nat.le_of_succ_le_succ hn)]
      rfl

/-- What was refused of a head is refused with more behind it. -/
theorem readHead_append_of_fail (t : Bytes) (h : readHead buf limits = .fail fail) :
    ∃ fail', readHead (buf ++ t) limits = .fail fail' ∧
      (HttpResponse.fromFail fail').kind = (HttpResponse.fromFail fail).kind := by
  unfold readHead at h ⊢
  cases hend : findHeadEnd buf with
  | none =>
    rw [hend] at h
    dsimp only at h
    split at h
    case isFalse => cases h
    case isTrue hlong =>
      cases h
      cases hend' : findHeadEnd (buf ++ t) with
      | none =>
        dsimp only
        rw [if_pos (hlong.trans_le (List.length_append ▸ Nat.le_add_right _ _))]
        exact ⟨_, rfl, rfl⟩
      | some stop =>
        have hstop : buf.length < stop := by
          by_contra hle
          rw [findHeadEnd_of_append hend' (Nat.le_of_not_lt hle)] at hend
          cases hend
        dsimp only
        rw [if_pos (hlong.trans hstop)]
        exact ⟨_, rfl, rfl⟩
  | some stop =>
    obtain ⟨-, -, hle⟩ := take_of_findHeadEnd hend
    rw [hend] at h
    rw [findHeadEnd_append t hend]
    dsimp only at h ⊢
    rw [List.take_append_of_le_length hle]
    exact ⟨fail, h, rfl⟩

theorem readHead_append_of_done {head : RequestHead} (t : Bytes) (h : readHead buf limits = .done head) :
    readHead (buf ++ t) limits = .done head := by
  obtain ⟨text, hwf, hfields, hmax, hpre, rfl⟩ := readHead_eq_done.mp h
  exact readHead_eq_done.mpr ⟨text, hwf, hfields, hmax, hpre.trans (List.prefix_append _ _), rfl⟩

/-- More bytes for a connection. -/
def Conn.push (c : Conn) (t : Bytes) : Conn := { c with buf := c.buf ++ t }

/-- Two outcomes that differ in what tells how long a head is, if at all. -/
structure Alike (r r' : σ × List HttpResponse × Option Conn) : Prop where
  state : r.1 = r'.1
  responses : r.2.1.map HttpResponse.kind = r'.2.1.map HttpResponse.kind
  conn : r.2.2 = r'.2.2

variable {r r' : σ × List HttpResponse × Option Conn}

theorem Alike.refl (r : σ × List HttpResponse × Option Conn) : Alike r r := ⟨rfl, rfl, rfl⟩

theorem Alike.symm (h : Alike r r') : Alike r' r := ⟨h.state.symm, h.responses.symm, h.conn.symm⟩

theorem Alike.trans {r'' : σ × List HttpResponse × Option Conn} (h : Alike r r') (h' : Alike r' r'') :
    Alike r r'' :=
  ⟨h.state.trans h'.state, h.responses.trans h'.responses, h.conn.trans h'.conn⟩

/-- An outcome, with responses that were written before. -/
def behindAll (out : List HttpResponse) (r : σ × List HttpResponse × Option Conn) :
    σ × List HttpResponse × Option Conn := (r.1, out ++ r.2.1, r.2.2)

theorem Alike.behindAll {out out' : List HttpResponse}
    (hout : out.map HttpResponse.kind = out'.map HttpResponse.kind) (h : Alike r r') :
    Alike (behindAll out r) (behindAll out' r') := by
  obtain ⟨hstate, hresponses, hconn⟩ := h
  refine ⟨hstate, ?_, hconn⟩
  unfold Rpc.behindAll
  rw [List.map_append, List.map_append, hout, hresponses]

variable (handle ctx) in
/-- What comes of an outcome when more bytes are read. -/
def more (r : σ × List HttpResponse × Option Conn) (t : Bytes) : σ × List HttpResponse × Option Conn :=
  match r.2.2 with
  | none => r
  | some c => behindAll r.2.1 (settle handle ctx r.1 (c.push t))

theorem more_behindAll (out : List HttpResponse) (r : σ × List HttpResponse × Option Conn) (t : Bytes) :
    more handle ctx (behindAll out r) t = behindAll out (more handle ctx r t) := by
  obtain ⟨s, out', _ | c⟩ := r
  · rfl
  · exact Prod.ext rfl (Prod.ext (List.append_assoc _ _ _) rfl)

theorem settle_of_done {head : RequestHead} {requests : Nat}
    (hroom : ¬ctx.limits.maxRequestsPerConn ≤ requests) (h : readHead buf ctx.limits = .done head) :
    settle handle ctx s ⟨buf, .head, requests⟩ = match validateHead head ctx with
      | .error fail => (s, [.fromFail fail], none)
      | .ok (n, keepAlive) =>
        settle handle ctx s ⟨buf.drop head.headLen, .body n keepAlive, requests⟩ := by
  rw [settle, if_neg hroom]
  split
  case h_3 head' h' =>
    cases h.symm.trans h'
    rfl
  all_goals
    rename_i h'
    cases h.symm.trans h'

theorem settle_of_fail {requests : Nat} (hroom : ¬ctx.limits.maxRequestsPerConn ≤ requests)
    (h : readHead buf ctx.limits = .fail fail) :
    settle handle ctx s ⟨buf, .head, requests⟩ = (s, [.fromFail fail], none) := by
  rw [settle, if_neg hroom]
  split
  case h_2 fail' h' =>
    cases h.symm.trans h'
    rfl
  all_goals
    rename_i h'
    cases h.symm.trans h'

theorem settle_of_needMore {requests : Nat} (hroom : ¬ctx.limits.maxRequestsPerConn ≤ requests)
    (h : readHead buf ctx.limits = .needMore) :
    settle handle ctx s ⟨buf, .head, requests⟩ = (s, [], some ⟨buf, .head, requests⟩) := by
  rw [settle, if_neg hroom]
  split
  case h_1 => rfl
  all_goals
    rename_i h'
    cases h.symm.trans h'

/-- Whether bytes are there at once or come later makes no difference. -/
theorem settle_push (handle : σ → Bytes → σ × Option Bytes) (ctx : HttpContext) (s : σ) (c : Conn)
    (t : Bytes) :
    Alike (settle handle ctx s (c.push t)) (more handle ctx (settle handle ctx s c) t) := by
  fun_induction settle handle ctx s c with
  | case1 s buf requests hfull =>
    unfold Conn.push
    rw [settle, if_pos hfull]
    exact .refl _
  | case2 s buf requests hfull hread => exact .refl _
  | case3 s buf requests hfull fail hread =>
    obtain ⟨fail', hread', hkind⟩ := readHead_append_of_fail t hread
    unfold Conn.push
    rw [settle_of_fail hfull hread']
    exact ⟨rfl, congrArg (· :: []) hkind, rfl⟩
  | case4 s buf requests hfull head hread hlen fail hvalid =>
    unfold Conn.push
    rw [settle_of_done hfull (readHead_append_of_done t hread), hvalid]
    exact .refl _
  | case5 s buf requests hfull head hread hlen n keepAlive hvalid ih =>
    unfold Conn.push at ih ⊢
    rw [settle_of_done hfull (readHead_append_of_done t hread), hvalid]
    dsimp only at ih ⊢
    rwa [List.drop_append_of_le_length hlen.2]
  | case6 => exact .refl _
  | case7 s buf n requests hlong s' answer hanswer s'' out c hsettle ih =>
    have hlong' : ¬(buf ++ t).length < n := by
      rw [List.length_append]
      omega
    unfold Conn.push at ih ⊢
    rw [settle, if_neg hlong', List.take_append_of_le_length (Nat.le_of_not_lt hlong), hanswer]
    dsimp only
    rw [if_pos rfl, List.drop_append_of_le_length (Nat.le_of_not_lt hlong)]
    rw [hsettle] at ih
    have hout : [respond answer true].map HttpResponse.kind = _ := rfl
    have hall := ih.behindAll hout
    rwa [← more_behindAll] at hall
  | case8 s buf n keepAlive requests hlong s' answer hanswer hclose =>
    have hlong' : ¬(buf ++ t).length < n := by
      rw [List.length_append]
      omega
    unfold Conn.push
    rw [settle, if_neg hlong', List.take_append_of_le_length (Nat.le_of_not_lt hlong), hanswer]
    dsimp only
    rw [if_neg hclose]
    exact .refl _

/-- A connection that waits goes on waiting. -/
theorem settle_again {s' : σ} {out : List HttpResponse} {c' : Conn}
    (h : settle handle ctx s c = (s', out, some c')) : settle handle ctx s' c' = (s', [], some c') := by
  fun_induction settle handle ctx s c generalizing s' out c' with
  | case1 | case3 | case4 | case8 => cases h
  | case2 s buf requests hfull hread =>
    cases h
    rw [settle, if_neg hfull]
    split
    case h_1 => rfl
    all_goals
      rename_i hread'
      cases hread.symm.trans hread'
  | case5 _ _ _ _ _ _ _ _ _ _ ih => exact ih h
  | case6 s buf n keepAlive requests hshort =>
    cases h
    rw [settle, if_pos hshort]
  | case7 s buf n requests hlong s' answer hanswer s'' out c hsettle ih =>
    cases h
    exact ih hsettle

/-! ## Chunks -/

variable (handle ctx) in
/-- What comes of an outcome and the reads after it. -/
def after (budgetMillis : Nat) (r : σ × List HttpResponse × Option Conn) (reads : List ReadOutcome) :
    σ × List HttpResponse :=
  let (s, out) := serveReads handle ctx budgetMillis r.1 r.2.2 reads
  (s, r.2.1 ++ out)

variable {budgetMillis : Nat}

theorem after_bytes (r : σ × List HttpResponse × Option Conn) (chunk : Bytes)
    (reads : List ReadOutcome) : after handle ctx budgetMillis r (.bytes chunk :: reads) =
      after handle ctx budgetMillis (more handle ctx r chunk) reads := by
  obtain ⟨s, out, _ | c⟩ := r
  · cases reads <;> rfl
  · exact Prod.ext rfl (List.append_assoc _ _ _).symm

theorem Alike.after (h : Alike r r') (budgetMillis : Nat) (reads : List ReadOutcome) :
    (after handle ctx budgetMillis r reads).1 = (after handle ctx budgetMillis r' reads).1 ∧
      (after handle ctx budgetMillis r reads).2.map HttpResponse.kind =
        (after handle ctx budgetMillis r' reads).2.map HttpResponse.kind := by
  obtain ⟨hstate, hresponses, hconn⟩ := h
  unfold Rpc.after
  rw [hstate, hconn]
  refine ⟨rfl, ?_⟩
  rw [List.map_append, List.map_append, hresponses]

/-- Two chunks are as one. -/
theorem more_more (r : σ × List HttpResponse × Option Conn) (a b : Bytes) :
    Alike (more handle ctx r (a ++ b)) (more handle ctx (more handle ctx r a) b) := by
  obtain ⟨s, out, _ | c⟩ := r
  · exact .refl _
  · show Alike (behindAll out (settle handle ctx s (c.push (a ++ b))))
      (more handle ctx (behindAll out (settle handle ctx s (c.push a))) b)
    have hpush : c.push (a ++ b) = (c.push a).push b := by
      unfold Conn.push
      rw [List.append_assoc]
    rw [more_behindAll, hpush]
    exact (settle_push handle ctx s (c.push a) b).behindAll rfl

/-- A connection that waits waits for more than nothing. -/
theorem more_settle_nil (handle : σ → Bytes → σ × Option Bytes) (ctx : HttpContext) (s : σ)
    (c : Conn) :
    more handle ctx (settle handle ctx s c) [] = settle handle ctx s c := by
  cases h : settle handle ctx s c with
  | mk s' r =>
    obtain ⟨out, _ | c'⟩ := r
    · rfl
    · show behindAll out (settle handle ctx s' (c'.push [])) = _
      have hpush : c'.push [] = c' := by
        unfold Conn.push
        rw [List.append_nil]
      rw [hpush, settle_again h, behindAll, List.append_nil]

theorem more_more_nil (r : σ × List HttpResponse × Option Conn) (t : Bytes) :
    more handle ctx (more handle ctx r t) [] = more handle ctx r t := by
  obtain ⟨s, out, _ | c⟩ := r
  · rfl
  · show more handle ctx (behindAll out (settle handle ctx s (c.push t))) [] = _
    rw [more_behindAll, more_settle_nil]
    rfl

theorem after_chunks (r : σ × List HttpResponse × Option Conn) (chunks : List Bytes)
    (reads : List ReadOutcome) : after handle ctx budgetMillis r (chunks.map .bytes ++ reads) =
      after handle ctx budgetMillis (chunks.foldl (more handle ctx) r) reads := by
  induction chunks generalizing r with
  | nil => rfl
  | cons chunk chunks ih =>
    rw [List.map_cons, List.cons_append, after_bytes, ih]
    rfl

theorem alike_foldl_more (chunks : List Bytes) (h : more handle ctx r [] = r) :
    Alike (chunks.foldl (more handle ctx) r) (more handle ctx r chunks.flatten) := by
  induction chunks generalizing r with
  | nil =>
    rw [List.flatten_nil, h]
    exact .refl _
  | cons chunk chunks ih =>
    exact (ih (more_more_nil r chunk)).trans (more_more r chunk chunks.flatten).symm

/-- However the bytes are cut into reads, the connection does what it does with all of them at once:
the bodies are handled in the same order and the responses are the same, up to the text of a refusal
that tells how long a head is. -/
theorem serveConnection_chunks (s : σ) (chunks : List Bytes) (reads : List ReadOutcome) :
    (serveConnection handle ctx budgetMillis s (chunks.map .bytes ++ reads)).1 =
      (serveConnection handle ctx budgetMillis s (.bytes chunks.flatten :: reads)).1 ∧
    (serveConnection handle ctx budgetMillis s (chunks.map .bytes ++ reads)).2.map HttpResponse.kind =
      (serveConnection handle ctx budgetMillis s (.bytes chunks.flatten :: reads)).2.map
        HttpResponse.kind := by
  show (after handle ctx budgetMillis (settle handle ctx s ⟨[], .head, 0⟩) _).1 =
      (after handle ctx budgetMillis (settle handle ctx s ⟨[], .head, 0⟩) _).1 ∧
    (after handle ctx budgetMillis (settle handle ctx s ⟨[], .head, 0⟩) _).2.map _ =
      (after handle ctx budgetMillis (settle handle ctx s ⟨[], .head, 0⟩) _).2.map _
  rw [after_chunks, after_bytes]
  exact (alike_foldl_more chunks (more_settle_nil handle ctx s ⟨[], .head, 0⟩)).after budgetMillis reads

/-! ## Requests one after the other -/

/-- A request as it is written. -/
structure HttpRequest where
  text : HeadText
  body : Bytes
  keepAlive : Bool

namespace HttpRequest

variable (q : HttpRequest)

/-- The bytes of a request. -/
def bytes : Bytes := q.text.bytes ++ q.body

/-- A request that is answered: its head is within the limits and not refused, and its body is as long
as the head says. -/
structure Admitted (ctx : HttpContext) : Prop where
  wellFormed : q.text.WellFormed
  fields : q.text.fields.length ≤ ctx.limits.maxHeaders
  length : q.text.bytes.length ≤ ctx.limits.maxHeadBytes
  valid : validateHead q.text.requestHead ctx = .ok (q.body.length, q.keepAlive)

variable {q}

theorem Admitted.readHead (h : q.Admitted ctx) (hpre : q.bytes <+: buf) :
    readHead buf ctx.limits = .done q.text.requestHead :=
  readHead_eq_done.mpr ⟨q.text, h.wellFormed, h.fields, h.length,
    (List.prefix_append _ _).trans hpre, rfl⟩

variable {head : RequestHead} {n : Nat} {keepAlive : Bool}

/-- What is checked of the head a stream begins with is what its request says. -/
theorem Admitted.validated (h : q.Admitted ctx) (hpre : q.bytes <+: buf)
    (hread : Rpc.readHead buf ctx.limits = .done head) :
    validateHead head ctx = .ok (q.body.length, q.keepAlive) := by
  have hdone := (h.readHead hpre).symm.trans hread
  injection hdone with hhead
  exact hhead ▸ h.valid

/-- The body of a request is behind its head. -/
theorem Admitted.length_body_le (h : q.Admitted ctx) (hpre : q.bytes <+: buf)
    (hread : Rpc.readHead buf ctx.limits = .done head) :
    q.body.length ≤ (buf.drop head.headLen).length := by
  have hdone := (h.readHead hpre).symm.trans hread
  injection hdone with hhead
  have htext : q.text.bytes.length = head.headLen := congrArg RequestHead.headLen hhead
  have hle := hpre.length_le
  rw [bytes, List.length_append, htext] at hle
  rw [List.length_drop]
  omega

/-- A head that is read and not refused makes a request of the bytes it asks for behind it. -/
theorem exists_admitted (hread : readHead buf ctx.limits = .done head)
    (hvalid : validateHead head ctx = .ok (n, keepAlive))
    (hlong : n ≤ (buf.drop head.headLen).length) :
    ∃ q : HttpRequest, q.Admitted ctx ∧ q.body = (buf.drop head.headLen).take n ∧
      q.keepAlive = keepAlive ∧ buf = q.bytes ++ (buf.drop head.headLen).drop n := by
  obtain ⟨t, hwf, hfields, hmax, ⟨z, rfl⟩, rfl⟩ := readHead_eq_done.mp hread
  have hdrop : (t.bytes ++ z).drop t.requestHead.headLen = z := List.drop_left
  rw [hdrop] at hlong ⊢
  refine ⟨⟨t, z.take n, keepAlive⟩, ⟨hwf, hfields, hmax, ?_⟩, rfl, rfl, ?_⟩
  · rw [hvalid, List.length_take, Nat.min_eq_left hlong]
  · rw [bytes, List.append_assoc, List.take_append_drop]

end HttpRequest

/-- The requests of a stream, as far as they go: up to one that ends the connection, or to the limit,
or to where no request begins that is answered. -/
inductive Pipelined (ctx : HttpContext) : Nat → Bytes → List HttpRequest → Bytes → Prop
  | stop {k : Nat} {b : Bytes} : (k < ctx.limits.maxRequestsPerConn →
      ∀ q : HttpRequest, q.Admitted ctx → ¬q.bytes <+: b) → Pipelined ctx k b [] b
  | last {k : Nat} {b : Bytes} {q : HttpRequest} : k < ctx.limits.maxRequestsPerConn →
      q.Admitted ctx → q.keepAlive = false → Pipelined ctx k (q.bytes ++ b) [q] b
  | next {k : Nat} {b rest : Bytes} {q : HttpRequest} {qs : List HttpRequest} :
      k < ctx.limits.maxRequestsPerConn → q.Admitted ctx → q.keepAlive = true →
      Pipelined ctx (k + 1) b qs rest → Pipelined ctx k (q.bytes ++ b) (q :: qs) rest

variable (handle) in
/-- The bodies of requests are handled, one after the other. -/
def answerAll : σ → List HttpRequest → σ × List HttpResponse
  | s, [] => (s, [])
  | s, q :: qs =>
    let (s, answer) := handle s q.body
    let (s, out) := answerAll s qs
    (s, respond answer q.keepAlive :: out)

/-- Behind the requests there is at most one refusal, which closes the connection. -/
def Refused (refusal : List HttpResponse) (c : Option Conn) : Prop :=
  refusal = [] ∨ ∃ fail, refusal = [.fromFail fail] ∧ c = none

/-- What is done with a stream is what is done with its requests. -/
theorem settle_pipelined (handle : σ → Bytes → σ × Option Bytes) (ctx : HttpContext) (s : σ)
    (b : Bytes) (k : Nat) :
    ∃ qs rest refusal c, Pipelined ctx k b qs rest ∧ Refused refusal c ∧
      settle handle ctx s ⟨b, .head, k⟩ =
        behindAll (answerAll handle s qs).2 ((answerAll handle s qs).1, refusal, c) := by
  induction hlen : b.length using Nat.strong_induction_on generalizing s b k with
  | _ n ih =>
    subst hlen
    by_cases hfull : ctx.limits.maxRequestsPerConn ≤ k
    · refine ⟨[], b, [], none, .stop fun hlt ↦ absurd hfull (Nat.not_le.mpr hlt), .inl rfl, ?_⟩
      rw [settle, if_pos hfull]
      rfl
    · have hlt := Nat.lt_of_not_le hfull
      cases hread : readHead b ctx.limits with
      | needMore =>
        refine ⟨[], b, [], some ⟨b, .head, k⟩, .stop fun _ q hq hpre ↦ ?_, .inl rfl, ?_⟩
        · cases hread.symm.trans (hq.readHead hpre)
        · rw [settle_of_needMore hfull hread]
          rfl
      | fail fail =>
        refine ⟨[], b, [.fromFail fail], none, .stop fun _ q hq hpre ↦ ?_, .inr ⟨fail, rfl, rfl⟩, ?_⟩
        · cases hread.symm.trans (hq.readHead hpre)
        · rw [settle_of_fail hfull hread]
          rfl
      | done head =>
        rw [settle_of_done hfull hread]
        cases hvalid : validateHead head ctx with
        | error fail =>
          refine ⟨[], b, [.fromFail fail], none, .stop fun _ q hq hpre ↦ ?_, .inr ⟨fail, rfl, rfl⟩, rfl⟩
          cases hvalid.symm.trans (hq.validated hpre hread)
        | ok verdict =>
          obtain ⟨n, keepAlive⟩ := verdict
          dsimp only
          rw [settle]
          by_cases hshort : (b.drop head.headLen).length < n
          · rw [if_pos hshort]
            refine ⟨[], b, [], some _, .stop fun _ q hq hpre ↦ ?_, .inl rfl, rfl⟩
            have hbody : n = q.body.length :=
              (Prod.mk.inj (Except.ok.inj (hvalid.symm.trans (hq.validated hpre hread)))).1
            exact Nat.not_lt.mpr (hq.length_body_le hpre hread) (hbody ▸ hshort)
          · rw [if_neg hshort]
            obtain ⟨q, hq, hbody, rfl, hstream⟩ :=
              HttpRequest.exists_admitted hread hvalid (Nat.le_of_not_lt hshort)
            generalize (b.drop head.headLen).drop n = z at hstream ⊢
            rw [← hbody]
            cases hkeep : q.keepAlive with
            | false =>
              refine ⟨[q], z, [], none, hstream ▸ Pipelined.last hlt hq hkeep, .inl rfl, ?_⟩
              rw [answerAll, hkeep]
              rfl
            | true =>
              have hsmall : z.length < b.length := by
                have hpos : 0 < q.text.bytes.length :=
                  (readHead_headLen (hq.readHead ⟨z, hstream.symm⟩)).1
                rw [hstream, HttpRequest.bytes, List.length_append, List.length_append]
                omega
              obtain ⟨qs, rest, refusal, c, hpipe, href, hsettle⟩ :=
                ih _ hsmall (handle s q.body).1 z (k + 1) rfl
              refine ⟨q :: qs, rest, refusal, c, hstream ▸ Pipelined.next hlt hq hkeep hpipe, href, ?_⟩
              rw [answerAll, hkeep]
              dsimp only
              rw [if_pos rfl, hsettle]
              rfl

/-- What is kept of a request. -/
def HttpRequest.content (q : HttpRequest) : RequestHead × Bytes × Bool :=
  (q.text.requestHead, q.body, q.keepAlive)

/-- Two requests that one stream begins with are the same. -/
theorem HttpRequest.Admitted.unique {q q' : HttpRequest} (h : q.Admitted ctx) (h' : q'.Admitted ctx)
    (hpre : q.bytes <+: buf) (hpre' : q'.bytes <+: buf) :
    q.content = q'.content ∧ q.bytes = q'.bytes := by
  have hdone := (h.readHead hpre).symm.trans (h'.readHead hpre')
  injection hdone with hhead
  have htext : q.text.bytes.length = q'.text.bytes.length := congrArg RequestHead.headLen hhead
  have hvalid := h.valid.symm.trans (hhead ▸ h'.valid)
  obtain ⟨hbody, hkeep⟩ := Prod.mk.inj (Except.ok.inj hvalid)
  have hlen : q.bytes.length = q'.bytes.length := by
    rw [HttpRequest.bytes, HttpRequest.bytes, List.length_append, List.length_append, htext, hbody]
  have hbytes : q.bytes = q'.bytes :=
    (List.prefix_of_prefix_length_le hpre hpre' hlen.le).eq_of_length hlen
  obtain ⟨-, hbody⟩ := List.append_inj hbytes htext
  exact ⟨Prod.ext hhead (Prod.ext hbody hkeep), hbytes⟩

/-- A stream has no other requests. -/
theorem Pipelined.unique {k : Nat} {b rest rest' : Bytes} {qs qs' : List HttpRequest}
    (h : Pipelined ctx k b qs rest) (h' : Pipelined ctx k b qs' rest') :
    qs.map HttpRequest.content = qs'.map HttpRequest.content ∧ rest = rest' := by
  induction h generalizing qs' rest' with
  | stop hnone =>
    cases h' with
    | stop => exact ⟨rfl, rfl⟩
    | last hlt hq => exact absurd (List.prefix_append _ _) (hnone hlt _ hq)
    | next hlt hq => exact absurd (List.prefix_append _ _) (hnone hlt _ hq)
  | @last k b q hlt hq hkeep =>
    generalize hb : q.bytes ++ b = stream at h'
    have hpre : q.bytes <+: stream := ⟨b, hb⟩
    cases h' with
    | stop hnone => exact absurd hpre (hnone hlt _ hq)
    | @last _ b' q' hlt' hq' =>
      obtain ⟨hcontent, hbytes⟩ := hq.unique hq' hpre (List.prefix_append _ _)
      rw [hbytes] at hb
      exact ⟨congrArg (· :: []) hcontent, List.append_cancel_left hb⟩
    | next hlt' hq' hkeep' =>
      obtain ⟨hcontent, -⟩ := hq.unique hq' hpre (List.prefix_append _ _)
      have hsame : _ = _ := congrArg (·.2.2) hcontent
      cases hkeep.symm.trans (hsame.trans hkeep')
  | @next k b rest q qs hlt hq hkeep _ ih =>
    generalize hb : q.bytes ++ b = stream at h'
    have hpre : q.bytes <+: stream := ⟨b, hb⟩
    cases h' with
    | stop hnone => exact absurd hpre (hnone hlt _ hq)
    | last hlt' hq' hkeep' =>
      obtain ⟨hcontent, -⟩ := hq.unique hq' hpre (List.prefix_append _ _)
      have hsame : _ = _ := congrArg (·.2.2) hcontent
      cases hkeep.symm.trans (hsame.trans hkeep')
    | next hlt' hq' hkeep' hrest =>
      obtain ⟨hcontent, hbytes⟩ := hq.unique hq' hpre (List.prefix_append _ _)
      rw [hbytes] at hb
      obtain rfl := List.append_cancel_left hb
      obtain ⟨hqs, hend⟩ := ih hrest
      exact ⟨congrArg₂ List.cons hcontent hqs, hend⟩

/-- No response to a body tells how long a head is. -/
theorem map_kind_answerAll (s : σ) (qs : List HttpRequest) :
    (answerAll handle s qs).2.map HttpResponse.kind = (answerAll handle s qs).2 := by
  induction qs generalizing s with
  | nil => rfl
  | cons q qs ih =>
    refine congrArg₂ _ ?_ (ih _)
    cases (handle s q.body).2 <;> rfl

/-! ## What is admitted -/

/-- The comparison of every byte finds any that differ. -/
theorem constantTimeEq_iff {a b : Bytes} : constantTimeEq a b = true ↔ a = b := by
  have hfold (l : List (UInt8 × UInt8)) (diff : UInt8) :
      l.foldl (fun diff p ↦ diff ||| (p.1 ^^^ p.2)) diff = 0 ↔ diff = 0 ∧ ∀ p ∈ l, p.1 = p.2 := by
    induction l generalizing diff with
    | nil => simp
    | cons p l ih =>
      rw [List.foldl_cons, ih, UInt8.or_eq_zero_iff, UInt8.xor_eq_zero_iff, List.forall_mem_cons,
        and_assoc]
  unfold constantTimeEq
  split
  case isTrue hlen => exact iff_of_false nofun fun heq ↦ hlen (congrArg _ heq)
  case isFalse hlen =>
    rw [beq_iff_eq, hfold]
    constructor
    · rintro ⟨-, hall⟩
      refine List.ext_getElem (not_not.mp hlen) fun i hi hi' ↦ ?_
      exact hall (a[i], b[i]) (List.mem_iff_getElem.mpr ⟨i, by simp [hi, hi'], by simp⟩)
    · rintro rfl
      refine ⟨rfl, fun p hp ↦ ?_⟩
      obtain ⟨i, hi, rfl⟩ := List.getElem_of_mem hp
      simp

/-- The only field of a name. -/
theorem RequestHead.filter_of_header {head : RequestHead} {name v : Text}
    (h : head.header name = some v) (hone : ¬1 < head.headerCount name) :
    head.headers.filter (·.1 == name) = [(name, v)] := by
  unfold header at h
  unfold headerCount at hone
  rw [List.countP_eq_length_filter] at hone
  rw [← List.head?_filter] at h
  obtain ⟨⟨name', v'⟩, hhead, rfl⟩ := Option.map_eq_some_iff.mp h
  obtain ⟨rest, hfilter⟩ := List.head?_eq_some_iff.mp hhead
  have hname : name' = name := by
    have hmem := List.of_mem_filter (hfilter ▸ List.mem_cons_self : (name', v') ∈ _)
    exact beq_iff_eq.mp hmem
  rw [hfilter, List.length_cons] at hone
  have hrest : rest = [] := List.eq_nil_of_length_eq_zero (by omega)
  rw [hfilter, hrest, hname]

theorem RequestHead.filter_of_header_none {head : RequestHead} {name : Text}
    (h : head.header name = none) : ∀ f ∈ head.headers, f.1 ≠ name := by
  intro f hf heq
  have hnone := List.find?_eq_none.mp (Option.map_eq_none_iff.mp h) f hf
  exact hnone (beq_iff_eq.mpr heq)

theorem contentLength_eq_ok {head : RequestHead} {n : Nat} : contentLength head ctx = .ok n ↔
    ∃ v, head.header "content-length".toList = some v ∧ v ≠ [] ∧ v.all Char.isDigit = true ∧
      Nat.ofDigitChars 10 v 0 = n ∧ n ≤ 2 ^ 64 - 1 ∧ n ≤ ctx.limits.maxBodyBytes := by
  unfold contentLength
  split
  case h_2 hnone =>
    rw [hnone]
    exact iff_of_false nofun fun ⟨_, h, _⟩ ↦ nomatch h
  case h_1 v hv =>
    rw [hv]
    split
    case isTrue hbad =>
      refine iff_of_false nofun ?_
      rintro ⟨_, ⟨⟩, hne, hall, -⟩
      exact hbad.elim hne fun h ↦ h hall
    case isFalse hgood =>
      obtain ⟨hne, hall⟩ := not_or.mp hgood
      rw [not_not] at hall
      rw [Text.parseUnsigned_of_digits hne hall]
      by_cases hmax : Nat.ofDigitChars 10 v 0 ≤ 2 ^ 64 - 1
      · rw [if_pos hmax]
        dsimp only
        constructor
        · intro h
          split at h
          case isTrue => cases h
          case isFalse hbody =>
            cases h
            exact ⟨v, rfl, hne, hall, rfl, hmax, Nat.le_of_not_lt hbody⟩
        · rintro ⟨_, ⟨⟩, -, -, rfl, -, hbody⟩
          rw [if_neg (Nat.not_lt.mpr hbody)]
      · rw [if_neg hmax]
        refine iff_of_false nofun ?_
        rintro ⟨_, ⟨⟩, -, -, rfl, hmax', -⟩
        exact hmax hmax'

/-- What stands behind the host in `validate_head`. -/
theorem framing_of_validateHead {head : RequestHead} {n : Nat} {keepAlive : Bool}
    (h : validateHead head ctx = .ok (n, keepAlive)) :
    head.header "transfer-encoding".toList = none ∧ ¬1 < head.headerCount "content-length".toList ∧
      contentLength head ctx = .ok n := by
  unfold validateHead at h
  split at h
  case isTrue => cases h
  case isFalse =>
    split at h
    case isTrue => cases h
    case isFalse =>
      split at h
      case isTrue => cases h
      case isFalse =>
        split at h
        case isTrue => cases h
        case isFalse =>
          obtain ⟨⟨⟩, -, h⟩ := Except.bind_eq_ok.mp h
          split at h
          case isTrue => cases h
          case isFalse hchunked =>
            split at h
            case isTrue => cases h
            case isFalse hone =>
              obtain ⟨n', hn, h⟩ := Except.bind_eq_ok.mp h
              obtain ⟨⟨⟩, -, h⟩ := Except.bind_eq_ok.mp h
              obtain ⟨⟨⟩, -, h⟩ := Except.bind_eq_ok.mp h
              cases h
              exact ⟨Option.not_isSome_iff_eq_none.mp hchunked, hone, hn⟩

/-- A request says its length once, in digits, and is not chunked. -/
structure HttpRequest.Framed (q : HttpRequest) : Prop where
  length : ∃ f,
    q.text.fields.filter (fun f ↦ Text.toAsciiLowercase f.1 == "content-length".toList) = [f] ∧
      (trim f.2).all Char.isDigit = true ∧ Nat.ofDigitChars 10 (trim f.2) 0 = q.body.length
  chunked : ∀ f ∈ q.text.fields, Text.toAsciiLowercase f.1 ≠ "transfer-encoding".toList

theorem HttpRequest.Admitted.framed {q : HttpRequest} (h : q.Admitted ctx) : q.Framed := by
  obtain ⟨hchunked, hone, hlength⟩ := framing_of_validateHead h.valid
  obtain ⟨v, hv, -, hall, hvalue, -⟩ := contentLength_eq_ok.mp hlength
  have hfilter := RequestHead.filter_of_header hv hone
  have hmap : q.text.requestHead.headers = q.text.fields.map fieldHeader := rfl
  rw [hmap, List.filter_map] at hfilter
  obtain ⟨f, hf, hfield⟩ := List.map_eq_singleton_iff.mp hfilter
  obtain rfl : trim f.2 = v := congrArg Prod.snd hfield
  refine ⟨⟨f, hf, hall, hvalue⟩, fun g hg ↦ ?_⟩
  exact RequestHead.filter_of_header_none hchunked _ (List.mem_map_of_mem hg)

theorem Pipelined.admitted {k : Nat} {b rest : Bytes} {qs : List HttpRequest}
    (h : Pipelined ctx k b qs rest) : ∀ q ∈ qs, q.Admitted ctx := by
  induction h with
  | stop => exact nofun
  | last _ hq => exact List.forall_mem_singleton.mpr hq
  | next _ hq _ _ ih => exact List.forall_mem_cons.mpr ⟨hq, ih⟩

/-- A connection that is closed after some reads has handled the bodies of the requests that the bytes
it read begin with, in their order, and answered each, with at most a refusal behind them.  The bytes
are those of no other requests, and each request says once how long its body is. -/
theorem serveConnection_pipelined (s : σ) (chunks : List Bytes) :
    ∃ qs rest refusal, Pipelined ctx 0 chunks.flatten qs rest ∧
      (∀ qs' rest', Pipelined ctx 0 chunks.flatten qs' rest' →
        qs'.map HttpRequest.content = qs.map HttpRequest.content ∧ rest' = rest) ∧
      (∀ q ∈ qs, q.Framed) ∧ (refusal = [] ∨ ∃ fail, refusal = [.fromFail fail]) ∧
      (serveConnection handle ctx budgetMillis s (chunks.map .bytes ++ [.eof])).1 =
        (answerAll handle s qs).1 ∧
      (serveConnection handle ctx budgetMillis s (chunks.map .bytes ++ [.eof])).2.map
        HttpResponse.kind = (answerAll handle s qs).2 ++ refusal.map HttpResponse.kind := by
  obtain ⟨qs, rest, refusal, c, hpipe, href, hsettle⟩ :=
    settle_pipelined handle ctx s chunks.flatten 0
  have halike : Alike (chunks.foldl (more handle ctx) (settle handle ctx s ⟨[], .head, 0⟩))
      (settle handle ctx s ⟨chunks.flatten, .head, 0⟩) :=
    (alike_foldl_more chunks (more_settle_nil handle ctx s ⟨[], .head, 0⟩)).trans
      (settle_push handle ctx s ⟨[], .head, 0⟩ chunks.flatten).symm
  have heof (r : σ × List HttpResponse × Option Conn) :
      after handle ctx budgetMillis r [.eof] = (r.1, r.2.1) := by
    obtain ⟨s, out, _ | c⟩ := r <;> exact Prod.ext rfl (List.append_nil _)
  have hserve : serveConnection handle ctx budgetMillis s (chunks.map .bytes ++ [.eof]) =
      after handle ctx budgetMillis (settle handle ctx s ⟨[], .head, 0⟩)
        (chunks.map .bytes ++ [.eof]) := rfl
  obtain ⟨hstate, hresponses⟩ := halike.after budgetMillis [.eof]
  rw [← after_chunks, heof, hsettle, ← hserve] at hstate hresponses
  refine ⟨qs, rest, refusal, hpipe, fun _ _ h ↦ h.unique hpipe,
    fun q hq ↦ (hpipe.admitted q hq).framed, href.imp id fun ⟨fail, hfail, _⟩ ↦ ⟨fail, hfail⟩, hstate, ?_⟩
  rw [hresponses]
  show ((answerAll handle s qs).2 ++ refusal).map _ = _
  rw [List.map_append, map_kind_answerAll]

end Plaine.Rpc
