import Plaine.Lib.EditDistance
import Plaine.Rpc.Connection
import Plaine.Rpc.JsonAccepts

/-!
# The RPC server

`rpc/src/jsonrpc.rs`, the dispatch of `methods.rs` and `handle_body` of `server.rs`.  What the methods
of the list do is any function on the state of the node; how a string is printed in quotes is any
function, as it is the standard library's.
-/

namespace Plaine.Rpc

open Plaine.Lib Plaine.Lib.JsonText

/-- `{:?}` of strings and characters. -/
class DebugFormat where
  text : Text → Text
  char : Char → Text

/-! ## Errors -/

/-- `ErrorCode`. -/
inductive ErrorCode where
  | parseError
  | invalidRequest
  | methodNotFound
  | invalidParams
  | internalError
  | notReady
  | notFound
  | txRejected
  | featureDisabled
  | unauthorized
  | limitExceeded
  | busy
  | checkpointRejected
deriving DecidableEq

/-- `ErrorCode::code`. -/
def ErrorCode.code : ErrorCode → Int64
  | .parseError => -32700
  | .invalidRequest => -32600
  | .methodNotFound => -32601
  | .invalidParams => -32602
  | .internalError => -32603
  | .notReady => -32000
  | .notFound => -32001
  | .txRejected => -32002
  | .featureDisabled => -32003
  | .unauthorized => -32004
  | .limitExceeded => -32005
  | .busy => -32006
  | .checkpointRejected => -32007

/-- `ErrorCode::message`. -/
def ErrorCode.message : ErrorCode → Text
  | .parseError => "Parse error".toList
  | .invalidRequest => "Invalid Request".toList
  | .methodNotFound => "Method not found".toList
  | .invalidParams => "Invalid params".toList
  | .internalError => "Internal error".toList
  | .notReady => "Node not ready".toList
  | .notFound => "Not found".toList
  | .txRejected => "Transaction rejected".toList
  | .featureDisabled => "Feature disabled".toList
  | .unauthorized => "Unauthorized".toList
  | .limitExceeded => "Limit exceeded".toList
  | .busy => "Busy".toList
  | .checkpointRejected => "Checkpoint rejected".toList

/-- `RpcError`. -/
structure RpcError where
  code : ErrorCode
  detail : Option Text
  data : Option Json

namespace RpcError

/-- `RpcError::detail`. -/
def withDetail (code : ErrorCode) (detail : Text) : RpcError where
  code := code
  detail := some detail
  data := none

/-- `RpcError::to_json`. -/
def toJson (e : RpcError) : Json :=
  let data := (e.detail.map fun d ↦ ("detail".toList, (.str d : Json))).toList ++
    (e.data.map fun extra ↦ ("reason".toList, extra)).toList
  .obj ([("code".toList, .num e.code.code), ("message".toList, .str e.code.message)] ++
    if data.isEmpty then [] else [("data".toList, .obj data)])

end RpcError

/-- `Display` of a `JsonError`. -/
def JsonError.display [DebugFormat] (e : JsonError) : Text :=
  let place := Text.decimal e.offset
  match e.kind with
  | .tooLarge len max =>
    "request body is ".toList ++ Text.decimal len ++ " bytes, limit is ".toList ++ Text.decimal max
  | .tooDeep max =>
    "JSON nested deeper than ".toList ++ Text.decimal max ++ " levels at byte ".toList ++ place
  | .tooManyValues max => "JSON holds more than ".toList ++ Text.decimal max ++ " values".toList
  | .tooManyMembers max =>
    "a JSON array or object holds more than ".toList ++ Text.decimal max ++
      " entries at byte ".toList ++ place
  | .unexpectedEnd => "JSON ended unexpectedly at byte ".toList ++ place
  | .unexpected found =>
    "unexpected character ".toList ++ DebugFormat.char found ++ " at byte ".toList ++ place
  | .floatRejected =>
    "fractional numbers are not accepted at byte ".toList ++ place ++
      (" - Plaine uses no floating point anywhere, and amounts are decimal strings of mile (a " ++
        "u128 does not survive a double)").toList
  | .integerOutOfRange => "integer out of range at byte ".toList ++ place ++ " (i64 only)".toList
  | .badEscape => "bad string escape at byte ".toList ++ place
  | .badString => "invalid string at byte ".toList ++ place
  | .duplicateKey key =>
    "duplicate object key ".toList ++ DebugFormat.text key ++ " at byte ".toList ++ place ++
      (" - rejected rather than last-wins, so that no two readers can disagree about which one " ++
        "counts").toList
  | .trailingBytes => "trailing bytes after the JSON value at byte ".toList ++ place

/-- `error_from_json`. -/
def errorFromJson [DebugFormat] (e : JsonError) : RpcError :=
  let code := match e.kind with
    | .tooLarge .. | .tooDeep .. | .tooManyValues .. | .tooManyMembers .. => .limitExceeded
    | _ => .parseError
  .withDetail code e.display

/-! ## Requests and responses -/

/-- `Json::get`. -/
def get : Json → Text → Option Json
  | .obj members, key => (members.find? (·.1 == key)).map (·.2)
  | _, _ => none

/-- `Request`. -/
structure Request where
  method : Text
  params : Json
  id : Option Json

/-- A request that is none. -/
def invalidRequest (detail : Text) : RpcError := .withDetail .invalidRequest detail

/-- The version in `parse_request`. -/
def checkVersion [DebugFormat] (v : Json) : Except RpcError Unit :=
  match get v "jsonrpc".toList with
  | some (.str other) =>
    if other = "2.0".toList then .ok ()
    else .error (invalidRequest ("\"jsonrpc\" must be \"2.0\", found ".toList ++
      DebugFormat.text other))
  | _ => .error (invalidRequest "missing \"jsonrpc\": \"2.0\"".toList)

/-- The method in `parse_request`. -/
def methodOf (v : Json) : Except RpcError Text :=
  match get v "method".toList with
  | some (.str m) => .ok m
  | _ => .error (invalidRequest "missing \"method\" (a string)".toList)

/-- The parameters in `parse_request`. -/
def paramsOf (v : Json) : Except RpcError Json :=
  match get v "params".toList with
  | none | some .null => .ok (.arr [])
  | some (.arr items) => .ok (.arr items)
  | some (.obj members) => .ok (.obj members)
  | some _ => .error (invalidRequest
      "\"params\" must be an array (by position) or an object (by name)".toList)

/-- The id in `parse_request`; without one, or with a null, no answer is wanted. -/
def idOf (v : Json) : Except RpcError (Option Json) :=
  match get v "id".toList with
  | none | some .null => .ok none
  | some (.num i) => .ok (some (.num i))
  | some (.str i) => .ok (some (.str i))
  | some _ => .error (invalidRequest "\"id\" must be a string or an integer".toList)

/-- `parse_request`. -/
def parseRequest [DebugFormat] (v : Json) : Except RpcError Request :=
  match v with
  | .obj members => do
    checkVersion (.obj members)
    let method ← methodOf (.obj members)
    let params ← paramsOf (.obj members)
    let id ← idOf (.obj members)
    return { method, params, id }
  | _ => .error (invalidRequest
      "a request must be a JSON object (or an array of them for a batch)".toList)

/-- `success`. -/
def success (id result : Json) : Json :=
  .obj [("jsonrpc".toList, .str "2.0".toList), ("result".toList, result), ("id".toList, id)]

/-- `failure`. -/
def failure (id : Json) (err : RpcError) : Json :=
  .obj [("jsonrpc".toList, .str "2.0".toList), ("error".toList, err.toJson), ("id".toList, id)]

/-! ## Methods -/

/-- `METHODS`. -/
def methods : List Text :=
  ["chain_getInfo".toList, "chain_getHeaderByHeight".toList, "chain_getHeaderByHash".toList,
    "chain_getBlockByHeight".toList, "chain_getBlockByHash".toList, "account_get".toList,
    "tx_sendRaw".toList, "tx_get".toList, "mempool_getInfo".toList, "mempool_getBySender".toList,
    "fee_suggest".toList, "emission_audit".toList, "checkpoint_getStatus".toList,
    "checkpoint_submit".toList, "author_getNotes".toList, "net_getPeerInfo".toList,
    "stratum_getSessions".toList, "node_getBudgets".toList]

/-- `MAX_SUGGESTABLE_METHOD_LEN`. -/
def maxSuggestableMethodLen : Nat := 64

/-- A cell of the row in `edit_distance`: the `j`-th, of the `i`-th row. -/
def editCell (a b : Text) (i : Nat) (prev2 prev cur : List Nat) (j : Nat) : List Nat :=
  let cost := if a[i - 1]? = b[j - 1]? then 0 else 1
  let best := min (min (prev.getD j 0 + 1) (cur.getD (j - 1) 0 + 1)) (prev.getD (j - 1) 0 + cost)
  cur.set j
    (if 1 < i ∧ 1 < j ∧ a[i - 1]? = b[j - 2]? ∧ a[i - 2]? = b[j - 1]? then
      min best (prev2.getD (j - 2) 0 + 1)
    else best)

/-- A row in `edit_distance`: the rows before the last, the last and one to be overwritten. -/
def editRow (a b : Text) (rows : List Nat × List Nat × List Nat) (i : Nat) :
    List Nat × List Nat × List Nat :=
  let (prev2, prev, cur) := rows
  let cur := (List.range' 1 b.length).foldl (editCell a b i prev2 prev) (cur.set 0 i)
  (prev, cur, prev2)

/-- `edit_distance`. -/
def editDistance (a b : Text) : Nat :=
  let rows := (List.range' 1 a.length).foldl (editRow a b)
    (List.replicate (b.length + 1) 0, List.range (b.length + 1), List.replicate (b.length + 1) 0)
  rows.2.1.getD b.length 0

section

open EditDistance

variable {a b : Text} {i j k : Nat} {prev2 prev cur row : List Nat}

/-- The cells of a row up to the `k`-th are the distances of the first `i` characters. -/
structure Filled (a b : Text) (i k : Nat) (row : List Nat) : Prop where
  length : row.length = b.length + 1
  cell : ∀ j ≤ k, row.getD j 0 = distance a b i j

theorem getD_set_of_ne {l : List Nat} {v : Nat} (h : k ≠ j) : (l.set j v).getD k 0 = l.getD k 0 := by
  rw [List.getD_eq_getElem?_getD, List.getD_eq_getElem?_getD, List.getElem?_set_ne h.symm]

theorem getD_set_self {l : List Nat} {v : Nat} (h : j < l.length) : (l.set j v).getD j 0 = v := by
  rw [List.getD_eq_getElem?_getD, List.getElem?_set_self h]
  rfl

/-- A cell is filled from the cells before it and those of the two rows before. -/
theorem Filled.editCell (hprev : Filled a b i b.length prev)
    (hprev2 : 0 < i → Filled a b (i - 1) b.length prev2) (hcur : Filled a b (i + 1) j cur)
    (hj : j < b.length) : Filled a b (i + 1) (j + 1) (editCell a b (i + 1) prev2 prev cur (j + 1)) := by
  have hcell : (if 1 < i + 1 ∧ 1 < j + 1 ∧ a[i]? = b[j - 1]? ∧ a[i - 1]? = b[j]? then
      min (min (min (distance a b i (j + 1) + 1) (distance a b (i + 1) j + 1))
        (distance a b i j + if a[i]? = b[j]? then 0 else 1)) (prev2.getD (j - 1) 0 + 1)
      else min (min (distance a b i (j + 1) + 1) (distance a b (i + 1) j + 1))
        (distance a b i j + if a[i]? = b[j]? then 0 else 1)) = distance a b (i + 1) (j + 1) := by
    rw [distance_succ]
    by_cases hcross : Crossed a b i j
    · have hprev2 := (hprev2 hcross.1).cell (j - 1) (by omega)
      rw [if_pos hcross, if_pos ⟨Nat.succ_lt_succ hcross.1, Nat.succ_lt_succ hcross.2.1, hcross.2.2⟩,
        hprev2]
    · rw [if_neg hcross, if_neg fun h ↦
        hcross ⟨Nat.lt_of_succ_lt_succ h.1, Nat.lt_of_succ_lt_succ h.2.1, h.2.2⟩]
  have hnew : Rpc.editCell a b (i + 1) prev2 prev cur (j + 1) =
      cur.set (j + 1) (distance a b (i + 1) (j + 1)) := by
    rw [← hcell]
    unfold Rpc.editCell
    simp only [Nat.add_sub_cancel, hprev.cell (j + 1) hj, hprev.cell j hj.le, hcur.cell j le_rfl]
    rfl
  rw [hnew]
  refine ⟨List.length_set.trans hcur.length, fun k hk ↦ ?_⟩
  rcases Nat.lt_or_ge k (j + 1) with hlt | hge
  · rw [getD_set_of_ne hlt.ne, hcur.cell k (Nat.le_of_lt_succ hlt)]
  · obtain rfl := Nat.le_antisymm hk hge
    exact getD_set_self (hcur.length ▸ Nat.succ_lt_succ hj)

theorem Filled.foldl_editCell (hprev : Filled a b i b.length prev)
    (hprev2 : 0 < i → Filled a b (i - 1) b.length prev2) (hcur : Filled a b (i + 1) 0 cur)
    (hk : k ≤ b.length) :
    Filled a b (i + 1) k ((List.range' 1 k).foldl (Rpc.editCell a b (i + 1) prev2 prev) cur) := by
  induction k with
  | zero => exact hcur
  | succ k ih =>
    rw [List.range'_1_concat, List.foldl_append, Nat.add_comm 1 k]
    exact hprev.editCell hprev2 (ih (by omega)) hk

/-- What the rows are after so many of them. -/
structure Rows (a b : Text) (i : Nat) (rows : List Nat × List Nat × List Nat) : Prop where
  prev2 : 0 < i → Filled a b (i - 1) b.length rows.1
  prev : Filled a b i b.length rows.2.1
  cur : rows.2.2.length = b.length + 1
  spare : rows.1.length = b.length + 1

theorem Rows.editRow {rows : List Nat × List Nat × List Nat} (h : Rows a b i rows) :
    Rows a b (i + 1) (Rpc.editRow a b rows (i + 1)) := by
  have hstart : Filled a b (i + 1) 0 (rows.2.2.set 0 (i + 1)) := by
    refine ⟨List.length_set.trans h.cur, fun j hj ↦ ?_⟩
    obtain rfl := Nat.le_zero.mp hj
    rw [distance_zero_right]
    exact getD_set_self (h.cur ▸ Nat.succ_pos _)
  exact ⟨fun _ ↦ h.prev, h.prev.foldl_editCell h.prev2 hstart le_rfl, h.spare, h.prev.length⟩

theorem rows_foldl (hk : k ≤ a.length) : Rows a b k ((List.range' 1 k).foldl (editRow a b)
    (List.replicate (b.length + 1) 0, List.range (b.length + 1), List.replicate (b.length + 1) 0)) := by
  induction k with
  | zero =>
    refine ⟨fun h ↦ absurd h (Nat.lt_irrefl 0), ⟨List.length_range, fun j hj ↦ ?_⟩,
      List.length_replicate, List.length_replicate⟩
    rw [distance_zero_left]
    show (List.range (b.length + 1)).getD j 0 = j
    rw [List.getD_eq_getElem?_getD, List.getElem?_range (Nat.lt_succ_of_le hj)]
    rfl
  | succ k ih =>
    rw [List.range'_1_concat, List.foldl_append, Nat.add_comm 1 k]
    exact (ih (by omega)).editRow

theorem editDistance_eq (a b : Text) : editDistance a b = distance a b a.length b.length :=
  (rows_foldl le_rfl).prev.cell b.length le_rfl

/-- The three rows of `edit_distance` compute the least number of edits that make one name of the
other. -/
theorem editDistance_least (a b : Text) :
    Aligns a b (editDistance a b) ∧ ∀ n, Aligns a b n → editDistance a b ≤ n := by
  have h := aligns_distance (a := a) (b := b) le_rfl le_rfl
  rw [List.take_length, List.take_length, ← editDistance_eq] at h
  refine ⟨h, fun n hn ↦ ?_⟩
  rw [editDistance_eq]
  exact distance_le hn le_rfl le_rfl List.take_length.symm List.take_length.symm

end

/-- The loop of `unknown_method`: the first of the closest methods. -/
def closest (name : Text) : Option (Nat × Text) :=
  methods.foldl (fun best candidate ↦
    let d := editDistance name candidate
    match best with
    | some (bd, m) => if d < bd then some (d, candidate) else some (bd, m)
    | none => some (d, candidate)) none

/-- `unknown_method`. -/
def unknownMethod [DebugFormat] (name : Text) : RpcError :=
  let list := ", ".toList.intercalate methods
  .withDetail .methodNotFound
    (if maxSuggestableMethodLen < (Text.asBytes name).length then
      "no method \"".toList ++ name.take maxSuggestableMethodLen ++ "...\" (".toList ++
        Text.decimal name.length ++ " chars). The list is closed: ".toList ++ list
    else
      match closest name with
      | some (d, m) =>
        if d ≤ 4 then
          "no method ".toList ++ DebugFormat.text name ++ "; did you mean ".toList ++
            DebugFormat.text m ++ "?".toList
        else "no method ".toList ++ DebugFormat.text name ++ ". The list is closed: ".toList ++ list
      | none => "no method ".toList ++ DebugFormat.text name ++ ". The list is closed: ".toList ++ list)

variable {σ : Type}

/-- What the methods of the list do. -/
abbrev Methods (σ : Type) : Type := Text → σ → Json → σ × Except RpcError Json

section

variable [DebugFormat] (call : Methods σ)

/-- `dispatch`. -/
def dispatch (s : σ) (req : Request) : σ × Except RpcError Json :=
  if req.method ∈ methods then call req.method s req.params else (s, .error (unknownMethod req.method))

/-! ## Bodies -/

/-- `MAX_BATCH`. -/
def maxBatch : Nat := 32

/-- `handle_one`. -/
def handleOne (s : σ) (value : Json) : σ × Option Json :=
  match parseRequest value with
  | .error e => (s, some (failure ((get value "id".toList).getD .null) e))
  | .ok req =>
    let (s, result) := dispatch call s req
    match req.id, result with
    | none, _ => (s, none)
    | some id, .ok v => (s, some (success id v))
    | some id, .error e => (s, some (failure id e))

/-- The loop of `handle_body` over a batch. -/
def handleBatch (s : σ) : List Json → σ × List Json
  | [] => (s, [])
  | item :: items =>
    let (s, resp) := handleOne call s item
    let (s, out) := handleBatch s items
    (s, resp.toList ++ out)

/-- The value `handle_body` answers with. -/
def answer (hashKey : Text → UInt64) (limits : JsonLimits) (s : σ) (body : Bytes) : σ × Option Json :=
  match parse hashKey body limits with
  | .error e => (s, some (failure .null (errorFromJson e)))
  | .ok (.arr items) =>
    if items = [] then
      (s, some (failure .null (invalidRequest "an empty batch is not a request".toList)))
    else if maxBatch < items.length then
      (s, some (failure .null (.withDetail .limitExceeded ("batch of ".toList ++
        Text.decimal items.length ++ " requests, the limit is ".toList ++ Text.decimal maxBatch))))
    else
      let (s, out) := handleBatch call s items
      (s, if out = [] then none else some (.arr out))
  | .ok value => handleOne call s value

/-- `handle_body`. -/
def handleBody (hashKey : Text → UInt64) (limits : JsonLimits) (s : σ) (body : Bytes) :
    σ × Option Bytes :=
  let (s, v) := answer call hashKey limits s body
  (s, v.map fun v ↦ Text.asBytes (write v))

end

/-! ## Values that are read back -/

/-- No object of a value has two members of one key. -/
inductive Unique : Json → Prop
  | null : Unique .null
  | bool (b : Bool) : Unique (.bool b)
  | num (n : Int64) : Unique (.num n)
  | str (s : Text) : Unique (.str s)
  | arr {items : List Json} : (∀ v ∈ items, Unique v) → Unique (.arr items)
  | obj {members : List (Text × Json)} : (members.map (·.1)).Nodup → (∀ m ∈ members, Unique m.2) →
      Unique (.obj members)

/-- The limits are no smaller. -/
structure JsonLimits.Le (limits limits' : JsonLimits) : Prop where
  maxBytes : limits.maxBytes ≤ limits'.maxBytes
  maxDepth : limits.maxDepth ≤ limits'.maxDepth
  maxValues : limits.maxValues ≤ limits'.maxValues
  maxMembers : limits.maxMembers ≤ limits'.maxMembers

/-- A text is the only spelling of a value that a parser needs: with limits that are large enough it
is read as the value, whatever the hash of its keys. -/
def ReadBack (v : Json) : Prop := ∃ limits : JsonLimits, ∀ limits' : JsonLimits, limits.Le limits' →
  ∀ hashKey, parse hashKey (Text.asBytes (write v)) limits' = .ok v

/-- A property of members that holds from bounds on holds of all from bounds on. -/
theorem exists_bounds {α : Type} {l : List α} {P : Nat → Nat → α → Prop}
    (h : ∀ a ∈ l, ∃ d w, ∀ d' w', d ≤ d' → w ≤ w' → P d' w' a) :
    ∃ d w, ∀ a ∈ l, ∀ d' w', d ≤ d' → w ≤ w' → P d' w' a := by
  induction l with
  | nil => exact ⟨0, 0, nofun⟩
  | cons a l ih =>
    obtain ⟨ha, hl⟩ := List.forall_mem_cons.mp h
    obtain ⟨d₁, w₁, h₁⟩ := ha
    obtain ⟨d₂, w₂, h₂⟩ := ih hl
    refine ⟨max d₁ d₂, max w₁ w₂, List.forall_mem_cons.mpr ⟨fun d w hd hw ↦ ?_, fun a ha d w hd hw ↦ ?_⟩⟩
    · exact h₁ d w (le_of_max_le_left hd) (le_of_max_le_left hw)
    · exact h₂ a ha d w (le_of_max_le_right hd) (le_of_max_le_right hw)

variable {v : Json} {limits : JsonLimits} {hashKey : Text → UInt64}

/-- Within how many levels, of how many members, a value is does not depend on the other limits. -/
theorem Unique.within (h : Unique v) : ∃ d w, ∀ d' w', d ≤ d' → w ≤ w' →
    ∀ limits : JsonLimits, w' ≤ limits.maxMembers → (dialect limits).Within d' v := by
  have hscalar (v : Json) (hv : ∀ k, ∀ limits : JsonLimits, (dialect limits).Within (k + 1) v) :
      ∃ d w, ∀ d' w', d ≤ d' → w ≤ w' →
        ∀ limits : JsonLimits, w' ≤ limits.maxMembers → (dialect limits).Within d' v := by
    refine ⟨1, 0, fun d' w' hd _ limits _ ↦ ?_⟩
    obtain ⟨k, rfl⟩ := Nat.exists_eq_add_of_le' hd
    exact hv k limits
  induction h with
  | null => exact hscalar _ fun _ _ ↦ trivial
  | bool => exact hscalar _ fun _ _ ↦ trivial
  | num => exact hscalar _ fun _ _ ↦ trivial
  | str => exact hscalar _ fun _ _ ↦ trivial
  | @arr items _ ih =>
    obtain ⟨d, w, hall⟩ := exists_bounds ih
    refine ⟨d + 1, max w items.length, fun d' w' hd hw limits hlimits ↦ ?_⟩
    obtain ⟨k, rfl⟩ := Nat.exists_eq_add_of_le' (Nat.le_of_add_left_le hd)
    refine ⟨(le_of_max_le_right hw).trans hlimits, fun v hv ↦ ?_⟩
    exact hall v hv k w' (by omega) (le_of_max_le_left hw) limits hlimits
  | @obj members hnodup _ ih =>
    obtain ⟨d, w, hall⟩ := exists_bounds ih
    refine ⟨d + 1, max w members.length, fun d' w' hd hw limits hlimits ↦ ?_⟩
    obtain ⟨k, rfl⟩ := Nat.exists_eq_add_of_le' (Nat.le_of_add_left_le hd)
    refine ⟨(le_of_max_le_right hw).trans hlimits, hnodup, fun m hm ↦ ⟨trivial, ?_⟩⟩
    exact hall m hm k w' (by omega) (le_of_max_le_left hw) limits hlimits

theorem Unique.readBack (h : Unique v) : ReadBack v := by
  obtain ⟨d, w, hwithin⟩ := h.within
  refine ⟨⟨(Text.asBytes (write v)).length, d, v.count, w⟩, fun limits hle hashKey ↦ ?_⟩
  have hall := hwithin (limits.maxDepth + 1) w (Nat.le_succ_of_le hle.maxDepth) le_rfl limits
    hle.maxMembers
  exact parse_of_isJson hle.maxBytes hle.maxValues (isJson_write hall)

/-- The parser makes no value with two members of one key. -/
theorem unique_of_spells {k : Nat} {x : Bytes} (h : (dialect limits).Spells k v x) : Unique v := by
  induction k generalizing v x with
  | zero => exact h.1.elim
  | succ k ih =>
    cases v with
    | null => exact .null
    | bool b => exact .bool b
    | num n => exact .num n
    | str s => exact .str s
    | arr items =>
      refine .arr fun v hv ↦ ?_
      obtain ⟨y, hy⟩ := h.2.mem v hv
      exact ih hy
    | obj members =>
      obtain ⟨-, hnodup, -, henclosed⟩ := h
      refine .obj hnodup fun m hm ↦ ?_
      obtain ⟨_, _, _, _, y, -, -, -, hy, -⟩ := henclosed.mem m hm
      exact ih hy

theorem unique_of_parse {body : Bytes} (h : parse hashKey body limits = .ok v) : Unique v := by
  obtain ⟨-, -, _, _, _, -, -, hspells, -⟩ := isJson_of_parse h
  exact unique_of_spells hspells

/-! ## Responses -/

/-- The data of an error has unique keys. -/
def RpcError.Clean (e : RpcError) : Prop := ∀ d, e.data = some d → Unique d

/-- What the methods return has unique keys. -/
def Methods.Clean (call : Methods σ) : Prop :=
  ∀ m s params, (∀ v, (call m s params).2 = .ok v → Unique v) ∧
    ∀ e, (call m s params).2 = .error e → e.Clean

theorem clean_withDetail (code : ErrorCode) (detail : Text) : (RpcError.withDetail code detail).Clean :=
  nofun

theorem unique_success {id result : Json} (hid : Unique id) (hresult : Unique result) :
    Unique (success id result) := by
  refine .obj ?_ ?_
  · show ["jsonrpc".toList, "result".toList, "id".toList].Nodup
    simp
  · simp only [List.forall_mem_cons, List.not_mem_nil, IsEmpty.forall_iff, implies_true, and_true]
    exact ⟨.str _, hresult, hid⟩

/-- The member `data` of an error. -/
theorem unique_data {detail : Option Text} {data : Option Json} (h : ∀ d, data = some d → Unique d) :
    Unique (.obj ((detail.map fun d ↦ ("detail".toList, (.str d : Json))).toList ++
      (data.map fun extra ↦ ("reason".toList, extra)).toList)) := by
  refine .obj ?_ ?_
  · cases detail <;> cases data <;> simp
  · rintro m hm
    rcases List.mem_append.mp hm with hm | hm
    · obtain ⟨d, -, rfl⟩ := Option.map_eq_some_iff.mp (Option.mem_toList.mp hm)
      exact .str d
    · obtain ⟨d, hd, rfl⟩ := Option.map_eq_some_iff.mp (Option.mem_toList.mp hm)
      exact h d hd

theorem RpcError.Clean.toJson {e : RpcError} (h : e.Clean) : Unique e.toJson := by
  unfold RpcError.toJson
  dsimp only
  split
  · refine .obj (by simp) ?_
    simp only [List.append_nil, List.forall_mem_cons]
    exact ⟨.num _, .str _, nofun⟩
  · refine .obj (by simp) ?_
    simp only [List.forall_mem_append, List.forall_mem_cons]
    exact ⟨⟨.num _, .str _, nofun⟩, unique_data h, nofun⟩

theorem unique_failure {id : Json} {e : RpcError} (hid : Unique id) (he : e.Clean) :
    Unique (failure id e) := by
  refine .obj ?_ ?_
  · show ["jsonrpc".toList, "error".toList, "id".toList].Nodup
    simp
  · simp only [List.forall_mem_cons, List.not_mem_nil, IsEmpty.forall_iff, implies_true, and_true]
    exact ⟨.str _, he.toJson, hid⟩

/-- A member of a value with unique keys has unique keys. -/
theorem Unique.get {u : Json} {key : Text} (h : Unique v) (hget : get v key = some u) : Unique u := by
  cases h with
  | obj hnodup hall =>
    obtain ⟨m, hm, rfl⟩ := Option.map_eq_some_iff.mp hget
    exact hall m (List.mem_of_find?_eq_some hm)
  | _ => cases hget

theorem Unique.getD_get {key : Text} (h : Unique v) : Unique ((Rpc.get v key).getD .null) := by
  cases hget : Rpc.get v key with
  | none => exact .null
  | some u => exact h.get hget

/-- An id is a number or a string. -/
theorem unique_of_idOf {id : Json} (h : idOf v = .ok (some id)) : Unique id := by
  unfold idOf at h
  split at h <;> cases h
  · exact .num _
  · exact .str _

/-- What is refused is refused with a text alone. -/
abbrev RefusesClean {α : Type} (x : Except RpcError α) : Prop := x.Fails RpcError.Clean

theorem refusesClean_invalidRequest {α : Type} (detail : Text) :
    RefusesClean (.error (invalidRequest detail) : Except RpcError α) := .error (clean_withDetail _ _)

section

variable [DebugFormat]

theorem refusesClean_parseRequest (v : Json) : RefusesClean (parseRequest v) := by
  unfold parseRequest
  split
  case h_1 members =>
    refine .bind ?_ fun _ ↦ .bind ?_ fun _ ↦ .bind ?_ fun _ ↦ .bind ?_ fun _ ↦ .ok _
    · unfold checkVersion
      repeat' split
      exacts [.ok _, refusesClean_invalidRequest _, refusesClean_invalidRequest _]
    · unfold methodOf
      split
      exacts [.ok _, refusesClean_invalidRequest _]
    · unfold paramsOf
      split
      exacts [.ok _, .ok _, .ok _, .ok _,
        refusesClean_invalidRequest _]
    · unfold idOf
      split
      exacts [.ok _, .ok _, .ok _, .ok _,
        refusesClean_invalidRequest _]
  case h_2 => exact refusesClean_invalidRequest _

/-- The id of a request is that of its text. -/
theorem idOf_of_parseRequest {req : Request} (h : parseRequest v = .ok req) : idOf v = .ok req.id := by
  cases v with
  | obj members =>
    rw [parseRequest] at h
    cases hversion : checkVersion (.obj members) <;> cases hmethod : methodOf (.obj members) <;>
      cases hparams : paramsOf (.obj members) <;> cases hid : idOf (.obj members) <;>
      rw [hversion, hmethod, hparams, hid] at h <;> cases h
    rfl
  | _ => cases h

/-- The id that a value is to be answered with, if it is to be answered. -/
def wantedId (value : Json) : Option Json :=
  match parseRequest value with
  | .error _ => some ((get value "id".toList).getD .null)
  | .ok req => req.id

/-- A result or an error, with the id. -/
inductive IsResponse (id : Json) : Json → Prop
  | success (result : Json) : IsResponse id (success id result)
  | failure (err : RpcError) : IsResponse id (failure id err)

/-- What is to be answered to a body: to one that is not read, to a request, to a batch that is too
long or empty, and to a batch without and with requests that want an answer. -/
inductive IsAnswer : Option Json → Option Json → Prop
  | unread {r : Json} : IsResponse .null r → IsAnswer none (some r)
  | one {v : Json} {out : Option Json} : (∀ items, v ≠ .arr items) →
      Option.Rel IsResponse (wantedId v) out → IsAnswer (some v) out
  | refused {items : List Json} {r : Json} : items = [] ∨ maxBatch < items.length →
      IsResponse .null r → IsAnswer (some (.arr items)) (some r)
  | silent {items : List Json} : items ≠ [] → items.length ≤ maxBatch →
      items.filterMap wantedId = [] → IsAnswer (some (.arr items)) none
  | batch {items out : List Json} : items ≠ [] → items.length ≤ maxBatch → out ≠ [] →
      List.Forall₂ IsResponse (items.filterMap wantedId) out →
      IsAnswer (some (.arr items)) (some (.arr out))

/-- The requests of a body, in order. -/
def requests : Option Json → List Request
  | none => []
  | some (.arr items) =>
    if items.length ≤ maxBatch then items.filterMap fun item ↦ (parseRequest item).toOption else []
  | some v => (parseRequest v).toOption.toList

variable {call : Methods σ} {s : σ}

theorem clean_dispatch (hcall : call.Clean) (s : σ) (req : Request) :
    (∀ v, (dispatch call s req).2 = .ok v → Unique v) ∧
      ∀ e, (dispatch call s req).2 = .error e → e.Clean := by
  unfold dispatch
  split
  · exact hcall req.method s req.params
  · refine ⟨nofun, ?_⟩
    rintro e ⟨⟩
    exact clean_withDetail _ _

/-- A value is answered with its id, if an answer is wanted. -/
theorem handleOne_spec (hcall : call.Clean) (s : σ) (hv : Unique v) :
    Option.Rel IsResponse (wantedId v) (handleOne call s v).2 ∧
      (∀ r ∈ (handleOne call s v).2, Unique r) ∧
      (handleOne call s v).1 =
        (parseRequest v).toOption.toList.foldl (fun s req ↦ (dispatch call s req).1) s := by
  unfold wantedId handleOne
  cases hreq : parseRequest v with
  | error e =>
    refine ⟨.some (.failure e), ?_, rfl⟩
    rintro _ ⟨⟩
    exact unique_failure hv.getD_get (refusesClean_parseRequest v e hreq)
  | ok req =>
    obtain ⟨hok, herror⟩ := clean_dispatch hcall s req
    have hid := idOf_of_parseRequest hreq
    dsimp only
    cases hreqid : req.id with
    | none => exact ⟨.none, nofun, rfl⟩
    | some id =>
      rw [hreqid] at hid
      cases hresult : (dispatch call s req).2 with
      | ok v =>
        refine ⟨.some (.success v), ?_, rfl⟩
        rintro _ ⟨⟩
        exact unique_success (unique_of_idOf hid) (hok v hresult)
      | error e =>
        refine ⟨.some (.failure e), ?_, rfl⟩
        rintro _ ⟨⟩
        exact unique_failure (unique_of_idOf hid) (herror e hresult)

/-- The values of a batch are answered in order. -/
theorem handleBatch_spec (hcall : call.Clean) (s : σ) {items : List Json} (hitems : ∀ v ∈ items, Unique v) :
    List.Forall₂ IsResponse (items.filterMap wantedId) (handleBatch call s items).2 ∧
      (∀ r ∈ (handleBatch call s items).2, Unique r) ∧
      (handleBatch call s items).1 = (items.filterMap fun item ↦ (parseRequest item).toOption).foldl
        (fun s req ↦ (dispatch call s req).1) s := by
  induction items generalizing s with
  | nil => exact ⟨.nil, nofun, rfl⟩
  | cons v items ih =>
    obtain ⟨hv, hitems⟩ := List.forall_mem_cons.mp hitems
    obtain ⟨hone, hunique, hstate⟩ := handleOne_spec hcall s hv
    obtain ⟨hbatch, huniques, hstates⟩ := ih (handleOne call s v).1 hitems
    refine ⟨?_, ?_, ?_⟩
    · rw [handleBatch, List.filterMap_cons]
      dsimp only
      revert hone
      cases wantedId v <;> cases (handleOne call s v).2 <;> rintro ⟨⟩
      case none.none => exact hbatch
      case some.some h => exact .cons h hbatch
    · intro r hr
      rcases List.mem_append.mp hr with hr | hr
      · exact hunique r (Option.mem_toList.mp hr)
      · exact huniques r hr
    · rw [handleBatch]
      dsimp only
      rw [hstates, hstate, List.filterMap_cons]
      cases (parseRequest v).toOption <;> rfl

variable {hashKey : Text → UInt64} {limits : JsonLimits} {body : Bytes}

theorem answer_spec (hcall : call.Clean) (hashKey : Text → UInt64) (limits : JsonLimits) (s : σ)
    (body : Bytes) :
    IsAnswer (parse hashKey body limits).toOption (answer call hashKey limits s body).2 ∧
      (∀ v ∈ (answer call hashKey limits s body).2, Unique v) ∧
      (answer call hashKey limits s body).1 = (requests (parse hashKey body limits).toOption).foldl
        (fun s req ↦ (dispatch call s req).1) s := by
  unfold answer
  cases hparse : parse hashKey body limits with
  | error e =>
    refine ⟨.unread (.failure _), ?_, rfl⟩
    rintro _ ⟨⟩
    exact unique_failure .null (clean_withDetail _ _)
  | ok v =>
    have hv := unique_of_parse hparse
    cases v with
    | arr items =>
      dsimp only
      split
      case isTrue hempty =>
        subst hempty
        refine ⟨.refused (.inl rfl) (.failure _), ?_, rfl⟩
        rintro _ ⟨⟩
        exact unique_failure .null (clean_withDetail _ _)
      split
      case isTrue hlong =>
        refine ⟨.refused (.inr hlong) (.failure _), ?_, ?_⟩
        · rintro _ ⟨⟩
          exact unique_failure .null (clean_withDetail _ _)
        · show s = List.foldl _ s (if _ then _ else _)
          rw [if_neg (Nat.not_le_of_lt hlong)]
          rfl
      case isFalse hne hlong =>
        have hle := Nat.le_of_not_lt hlong
        cases hv with
        | arr hall =>
          obtain ⟨hids, hunique, hstate⟩ := handleBatch_spec hcall s hall
          have hstate' : (requests (some (.arr items))) =
              items.filterMap fun item ↦ (parseRequest item).toOption := if_pos hle
          rw [Except.toOption, hstate', ← hstate]
          dsimp only
          split
          case isTrue hsilent =>
            rw [hsilent] at hids
            exact ⟨.silent hne hle (List.forall₂_nil_right_iff.mp hids), nofun, rfl⟩
          case isFalse hsome =>
            refine ⟨.batch hne hle hsome hids, ?_, rfl⟩
            rintro _ ⟨⟩
            exact .arr hunique
    | _ =>
      obtain ⟨hone, hunique, hstate⟩ := handleOne_spec hcall s hv
      exact ⟨.one nofun hone, hunique, hstate⟩

end

/-- Methods that refuse every call. -/
def notReady : Methods Unit := fun _ s _ ↦ (s, .error (.withDetail .notReady []))

theorem clean_notReady : notReady.Clean := by
  refine fun _ _ _ ↦ ⟨nofun, ?_⟩
  rintro _ ⟨⟩
  exact clean_withDetail _ _

/-- The line that tells how long a body is. -/
def lengthLine (n : Nat) : Text := "Content-Length: ".toList ++ Text.decimal n

/-- What a client reads of the bytes of a connection: a head, up to the blank line, and as many bytes
behind it as the one line of the head says. -/
inductive ClientReads : Bytes → List (List Text × Bytes) → Prop
  | nil : ClientReads [] []
  | cons {buf : Bytes} {text : Text} {ls : List Text} {stop n : Nat} {rs : List (List Text × Bytes)} :
      findHeadEnd buf = some stop → buf.take stop = Text.asBytes text →
      splitCrlf text = ls ++ [[], []] →
      (ls.filter fun l ↦ "Content-Length:".toList <+: l) = [lengthLine n] →
      stop + n ≤ buf.length → ClientReads (buf.drop (stop + n)) rs →
      ClientReads buf ((ls, (buf.drop stop).take n) :: rs)

namespace HttpResponse

/-- The lines of the head of a response. -/
def lines (r : HttpResponse) : List Text :=
  ["HTTP/1.1 ".toList ++ Text.decimal r.status ++ ' ' :: reasonPhrase r.status,
    "Content-Type: application/json".toList, lengthLine r.body.length,
    "X-Content-Type-Options: nosniff".toList,
    if r.keepAlive then "Connection: keep-alive".toList else "Connection: close".toList] ++
  r.extraHeaders.map fun h ↦ h.1 ++ ':' :: ' ' :: h.2

theorem toBytes_eq (r : HttpResponse) :
    r.toBytes = Text.asBytes ((r.lines ++ [[]]).flatMap (· ++ crlf)) ++ r.body := by
  unfold toBytes lines lengthLine
  simp only [List.flatMap_append, List.flatMap_cons, List.flatMap_nil, List.flatMap_map, List.append_assoc,
    List.nil_append, List.append_nil, List.cons_append]

end HttpResponse

/-- What a client reads is one thing. -/
theorem ClientReads.unique {buf : Bytes} {rs rs' : List (List Text × Bytes)} (h : ClientReads buf rs)
    (h' : ClientReads buf rs') : rs = rs' := by
  induction h generalizing rs' with
  | nil =>
    cases h' with
    | nil => rfl
    | cons hend => cases hend
  | cons hend htext hlines hlength _ _ ih =>
    cases h' with
    | nil => cases hend
    | cons hend' htext' hlines' hlength' _ hrest' =>
      obtain rfl := Option.some.inj (hend.symm.trans hend')
      obtain rfl := Text.asBytes_injective (htext.symm.trans htext')
      obtain rfl := List.append_cancel_right (hlines.symm.trans hlines')
      obtain rfl := Text.decimal_injective
        (List.append_cancel_left (List.cons.inj (hlength.symm.trans hlength')).1)
      rw [ih hrest']

theorem isLine_append {l l' : Text} (h : IsLine l) (h' : IsLine l') : IsLine (l ++ l') :=
  fun c hc ↦ (List.mem_append.mp hc).elim (h c) (h' c)

theorem isLine_decimal (n : Nat) : IsLine (Text.decimal n) := by
  intro c hc
  have htchar : isTchar c = true := by
    rw [isTchar, Char.isAlphanum, Text.isDigit_of_mem_decimal hc, Bool.or_true, Bool.true_or]
  exact (isLineChar_of_isTchar htchar).1

theorem isLine_reasonPhrase (status : Nat) : IsLine (reasonPhrase status) := by
  unfold reasonPhrase
  split <;> simp [IsLine, IsLineChar]

/-- The only field that a response adds. -/
def allowPost : Text × Text := ("Allow".toList, "POST".toList)

/-- A response adds no other field. -/
def HttpResponse.Usual (r : HttpResponse) : Prop := ∀ h ∈ r.extraHeaders, h = allowPost

theorem HttpResponse.Usual.isLine {r : HttpResponse} (h : r.Usual) : ∀ l ∈ r.lines, IsLine l ∧ l ≠ [] := by
  intro l hl
  rcases List.mem_append.mp hl with hl | hl
  · simp only [List.mem_cons, List.not_mem_nil, or_false] at hl
    rcases hl with rfl | rfl | rfl | rfl | rfl
    · have hversion : IsLine "HTTP/1.1 ".toList ∧ "HTTP/1.1 ".toList ≠ [] := by simp [IsLine, IsLineChar]
      have hspace : IsLineChar ' ' := .inr (by decide)
      exact ⟨isLine_append (isLine_append hversion.1 (isLine_decimal _))
        (List.forall_mem_cons.mpr ⟨hspace, isLine_reasonPhrase _⟩),
        List.append_ne_nil_of_right_ne_nil _ (List.cons_ne_nil _ _)⟩
    · simp [IsLine, IsLineChar]
    · have hname : IsLine "Content-Length: ".toList ∧ "Content-Length: ".toList ≠ [] := by
        simp [IsLine, IsLineChar]
      exact ⟨isLine_append hname.1 (isLine_decimal _), List.append_ne_nil_of_left_ne_nil hname.2 _⟩
    · simp [IsLine, IsLineChar]
    · split <;> simp [IsLine, IsLineChar]
  · obtain ⟨f, hf, rfl⟩ := List.mem_map.mp hl
    rw [h f hf]
    simp [allowPost, IsLine, IsLineChar]

/-- One line of a head tells how long the body is. -/
theorem HttpResponse.Usual.filter_lines {r : HttpResponse} (h : r.Usual) :
    (r.lines.filter fun l ↦ "Content-Length:".toList <+: l) = [lengthLine r.body.length] := by
  have hextra : ((r.extraHeaders.map fun h ↦ h.1 ++ ':' :: ' ' :: h.2).filter
      fun l ↦ "Content-Length:".toList <+: l) = [] := by
    rw [List.filter_eq_nil_iff]
    intro l hl
    obtain ⟨f, hf, rfl⟩ := List.mem_map.mp hl
    rw [h f hf]
    simp [allowPost, List.cons_prefix_cons]
  have hconnection : ¬"Content-Length:".toList <+:
      if r.keepAlive then "Connection: keep-alive".toList else "Connection: close".toList := by
    split <;> simp [List.cons_prefix_cons]
  have hlength : "Content-Length:".toList <+: lengthLine r.body.length :=
    ⟨' ' :: Text.decimal r.body.length, rfl⟩
  have hstatus : ¬"Content-Length:".toList <+:
      "HTTP/1.1 ".toList ++ Text.decimal r.status ++ ' ' :: reasonPhrase r.status := by
    simp [List.cons_prefix_cons]
  have htype : ¬"Content-Length:".toList <+: "Content-Type: application/json".toList := by
    simp [List.cons_prefix_cons]
  have hsniff : ¬"Content-Length:".toList <+: "X-Content-Type-Options: nosniff".toList := by
    simp [List.cons_prefix_cons]
  rw [HttpResponse.lines, List.filter_append, hextra, List.append_nil]
  simp only [List.filter_cons, hlength, hconnection, hstatus, htype, hsniff]
  rfl

/-- What is read of responses is their heads and their bodies. -/
theorem clientReads_responses {rs : List HttpResponse} (h : ∀ r ∈ rs, r.Usual) :
    ClientReads (rs.flatMap HttpResponse.toBytes) (rs.map fun r ↦ (r.lines, r.body)) := by
  induction rs with
  | nil => exact .nil
  | cons r rs ih =>
    obtain ⟨hr, hrs⟩ := List.forall_mem_cons.mp h
    have hne : r.lines ≠ [] := List.cons_ne_nil _ _
    have hend := HeadText.findHeadEnd_lines hr.isLine hne (r.body ++ rs.flatMap HttpResponse.toBytes)
    have hbytes : (r :: rs).flatMap HttpResponse.toBytes =
        Text.asBytes ((r.lines ++ [[]]).flatMap (· ++ crlf)) ++
          (r.body ++ rs.flatMap HttpResponse.toBytes) := by
      rw [List.flatMap_cons, HttpResponse.toBytes_eq, List.append_assoc]
    rw [← hbytes] at hend
    have hbody : r.body = (((r :: rs).flatMap HttpResponse.toBytes).drop
        (Text.asBytes ((r.lines ++ [[]]).flatMap (· ++ crlf))).length).take r.body.length := by
      rw [hbytes, List.drop_left, List.take_left]
    have htake : ((r :: rs).flatMap HttpResponse.toBytes).take
        (Text.asBytes ((r.lines ++ [[]]).flatMap (· ++ crlf))).length =
          Text.asBytes ((r.lines ++ [[]]).flatMap (· ++ crlf)) := by
      rw [hbytes, List.take_left]
    have hsplit : splitCrlf ((r.lines ++ [[]]).flatMap (· ++ crlf)) = r.lines ++ [[], []] := by
      have hlines : crlf.intercalate (r.lines ++ [[], []]) = (r.lines ++ [[]]).flatMap (· ++ crlf) := by
        rw [List.append_cons, intercalate_append _ (List.cons_ne_nil _ _), List.intercalate_singleton,
          List.append_nil]
      rw [← hlines, splitCrlf_intercalate ?_ (List.append_ne_nil_of_left_ne_nil hne _)]
      intro l hl
      rcases List.mem_append.mp hl with hl | hl
      · exact (hr.isLine l hl).1
      · simp only [List.mem_cons, List.not_mem_nil, or_false, or_self] at hl
        subst hl
        exact nofun
    have hle : (Text.asBytes ((r.lines ++ [[]]).flatMap (· ++ crlf))).length + r.body.length ≤
        ((r :: rs).flatMap HttpResponse.toBytes).length := by
      rw [hbytes, List.length_append, List.length_append]
      omega
    have hrest : ClientReads (((r :: rs).flatMap HttpResponse.toBytes).drop
        ((Text.asBytes ((r.lines ++ [[]]).flatMap (· ++ crlf))).length + r.body.length))
        (rs.map fun r ↦ (r.lines, r.body)) := by
      rw [hbytes, ← List.drop_drop, List.drop_left, List.drop_left]
      exact ih hrs
    have hcons := ClientReads.cons hend htake hsplit hr.filter_lines hle hrest
    rw [← hbody] at hcons
    exact hcons

/-! ## What is refused -/

/-- What is refused adds no other field to a response. -/
abbrev RefusesUsual {α : Type} (x : Except HttpFail α) : Prop :=
  x.Fails fun e ↦ ∀ h ∈ e.extraHeaders, h = allowPost

theorem refusesUsual_new {α : Type} (status : Nat) (detail : Text) :
    RefusesUsual (.error (.new status detail) : Except HttpFail α) := .error nofun

theorem refusesUsual_checkHead (prev : Option UInt8) (head : Bytes) : RefusesUsual (checkHead prev head) := by
  induction head generalizing prev with
  | nil => exact .ok _
  | cons b head ih =>
    have hbad (e : HttpFail) (h : badByte prev b head.head? = some e) :
        RefusesUsual (.error e : Except HttpFail Unit) := by
      unfold badByte at h
      repeat' split at h
      all_goals cases h
      all_goals exact refusesUsual_new _ _
    rw [checkHead]
    split
    case h_1 e h => exact hbad e h
    case h_2 => exact ih _

theorem refusesUsual_parseHeader (line : Text) : RefusesUsual (parseHeader line) := by
  unfold parseHeader
  repeat' split
  all_goals first | exact refusesUsual_new _ _ | exact .ok _

theorem refusesUsual_readHeaders (limits : HttpLimits) (headers : List (Text × Text)) (ls : List Text) :
    RefusesUsual (readHeaders limits headers ls) := by
  induction ls generalizing headers with
  | nil => exact .ok _
  | cons l ls ih =>
    rw [readHeaders]
    split
    · exact .ok _
    split
    · exact refusesUsual_new _ _
    split
    case h_1 e h =>
      exact .error (refusesUsual_parseHeader l e h)
    case h_2 => exact ih _

theorem usual_of_readHead {buf : Bytes} {limits : HttpLimits} {e : HttpFail}
    (h : readHead buf limits = .fail e) : (HttpResponse.fromFail e).Usual := by
  have hdecode (head : Bytes) : RefusesUsual (decodeHead head limits) := by
    refine .bind (refusesUsual_checkHead _ _) fun _ ↦ ?_
    split
    · exact refusesUsual_new _ _
    unfold parseHead
    split
    · exact refusesUsual_new _ _
    refine .bind ?_ fun _ ↦ .bind (refusesUsual_readHeaders _ _ _) fun _ ↦ .ok _
    unfold parseRequestLine
    repeat' split
    all_goals first | exact refusesUsual_new _ _ | exact .ok _
  unfold readHead at h
  repeat' split at h
  all_goals cases h
  case h_1 => exact nofun
  case h_2.isTrue => exact nofun
  case h_2 hfail => exact hdecode _ _ hfail

theorem usual_of_validateHead {head : RequestHead} {ctx : HttpContext} {e : HttpFail}
    (h : validateHead head ctx = .error e) : (HttpResponse.fromFail e).Usual := by
  have hhost : RefusesUsual (checkHost head ctx) := by
    unfold checkHost
    repeat' split
    all_goals first | exact refusesUsual_new _ _ | exact .ok _
  have hlength : RefusesUsual (contentLength head ctx) := by
    unfold contentLength
    repeat' split
    all_goals first | exact refusesUsual_new _ _ | exact .ok _
  have htype : RefusesUsual (checkContentType head) := by
    unfold checkContentType
    split
    · dsimp only
      split
      exacts [.ok _, refusesUsual_new _ _]
    · exact refusesUsual_new _ _
  have htoken : RefusesUsual (checkToken head ctx) := by
    unfold checkToken
    dsimp only
    repeat' split
    all_goals first | exact refusesUsual_new _ _ | exact .ok _
  have hall : RefusesUsual (validateHead head ctx) := by
    unfold validateHead
    split
    · rintro e ⟨⟩ f hf
      exact List.mem_singleton.mp hf
    repeat' split
    iterate 3 exact refusesUsual_new _ _
    iterate 2 exact .bind hhost fun _ ↦ refusesUsual_new _ _
    exact .bind hhost fun _ ↦ .bind hlength fun _ ↦ .bind htype fun _ ↦ .bind htoken fun _ ↦
      .ok _
  exact hall e h

/-! ## Connections -/

section

variable {handle : σ → Bytes → σ × Option Bytes} {ctx : HttpContext} {P : HttpResponse → Prop}

/-- What every answer and every refusal is, is what is written until the next read. -/
theorem forall_settle (hhandle : ∀ s body keepAlive, P (respond (handle s body).2 keepAlive))
    (hread : ∀ buf fail, readHead buf ctx.limits = .fail fail → P (.fromFail fail))
    (hvalidate : ∀ head fail, validateHead head ctx = .error fail → P (.fromFail fail)) (s : σ) (c : Conn) :
    ∀ r ∈ (settle handle ctx s c).2.1, P r := by
  fun_induction settle handle ctx s c
  case case1 => exact List.forall_mem_nil _
  case case2 => exact List.forall_mem_nil _
  case case3 fail h => exact List.forall_mem_singleton.mpr (hread _ _ h)
  case case4 fail h => exact List.forall_mem_singleton.mpr (hvalidate _ _ h)
  case case5 ih => exact ih
  case case6 => exact List.forall_mem_nil _
  case case7 s buf n _ _ _ answer hanswer _ _ _ _ ih =>
    have hfirst := hhandle s (buf.take n) true
    rw [hanswer] at hfirst
    refine List.forall_mem_cons.mpr ⟨hfirst, ?_⟩
    simpa only [*] using ih
  case case8 s buf n keepAlive _ _ _ answer hanswer _ =>
    have hfirst := hhandle s (buf.take n) keepAlive
    rw [hanswer] at hfirst
    exact List.forall_mem_singleton.mpr hfirst

/-- What every answer and every refusal is, is all that is written. -/
theorem forall_serveConnection (hhandle : ∀ s body keepAlive, P (respond (handle s body).2 keepAlive))
    (hread : ∀ buf fail, readHead buf ctx.limits = .fail fail → P (.fromFail fail))
    (hvalidate : ∀ head fail, validateHead head ctx = .error fail → P (.fromFail fail))
    (budgetMillis : Nat) (htimeout : P (.fromFail (timeoutFail budgetMillis))) (s : σ)
    (reads : List ReadOutcome) : ∀ r ∈ (serveConnection handle ctx budgetMillis s reads).2, P r := by
  have hreads (c : Option Conn) (s : σ) :
      ∀ r ∈ (serveReads handle ctx budgetMillis s c reads).2, P r := by
    induction reads generalizing c s with
    | nil => cases c <;> exact List.forall_mem_nil _
    | cons read reads ih =>
      cases c with
      | none => exact List.forall_mem_nil _
      | some c =>
        refine List.forall_mem_append.mpr ⟨?_, ih _ _⟩
        cases read with
        | bytes chunk => exact forall_settle hhandle hread hvalidate _ _
        | eof => exact List.forall_mem_nil _
        | broken => exact List.forall_mem_nil _
        | expired => exact List.forall_mem_singleton.mpr htimeout
        | timedOut =>
          dsimp only [onRead]
          split
          · exact List.forall_mem_nil _
          · exact List.forall_mem_singleton.mpr htimeout
  exact List.forall_mem_append.mpr ⟨forall_settle hhandle hread hvalidate _ _, hreads _ _⟩

/-- A body is empty, of a status that has none, or a text that is read back. -/
structure HttpResponse.Sound (r : HttpResponse) : Prop where
  usual : r.Usual
  body : r.status = 204 ∧ r.body = [] ∨ ∃ v, r.body = Text.asBytes (write v) ∧ ReadBack v

theorem sound_fromFail {fail : HttpFail} (h : (HttpResponse.fromFail fail).Usual) :
    (HttpResponse.fromFail fail).Sound := by
  refine ⟨h, .inr ⟨_, rfl, Unique.readBack (.obj ?_ ?_)⟩⟩
  · show ["error".toList, "status".toList, "detail".toList].Nodup
    simp
  · simp only [List.forall_mem_cons, List.not_mem_nil, IsEmpty.forall_iff, implies_true, and_true]
    exact ⟨.str _, .num _, .str _⟩

/-- Whatever is read of a connection, what is written to it is read by a client as responses, each with
no body or with one that is JSON. -/
theorem serveConnection_sound [DebugFormat] {call : Methods σ} (hcall : call.Clean)
    (hashKey : Text → UInt64) (limits : JsonLimits) (ctx : HttpContext) (budgetMillis : Nat) (s : σ)
    (reads : List ReadOutcome) :
    let rs := (serveConnection (handleBody call hashKey limits) ctx budgetMillis s reads).2
    (∀ seen, ClientReads (rs.flatMap HttpResponse.toBytes) seen ↔ seen = rs.map fun r ↦ (r.lines, r.body)) ∧
    ∀ r ∈ rs, r.status = 204 ∧ r.body = [] ∨ ∃ v, r.body = Text.asBytes (write v) ∧ ReadBack v := by
  intro rs
  have hhandle (s : σ) (body : Bytes) (keepAlive : Bool) :
      (respond (handleBody call hashKey limits s body).2 keepAlive).Sound := by
    obtain ⟨-, hunique, -⟩ := answer_spec hcall hashKey limits s body
    have hout : (handleBody call hashKey limits s body).2 =
        (answer call hashKey limits s body).2.map fun v ↦ Text.asBytes (write v) := rfl
    rw [hout]
    cases hanswer : (answer call hashKey limits s body).2 with
    | none => exact ⟨nofun, .inl ⟨rfl, rfl⟩⟩
    | some v => exact ⟨nofun, .inr ⟨v, rfl, (hunique v hanswer).readBack⟩⟩
  have hsound : ∀ r ∈ rs, r.Sound :=
    forall_serveConnection hhandle (fun _ _ h ↦ sound_fromFail (usual_of_readHead h))
      (fun _ _ h ↦ sound_fromFail (usual_of_validateHead h)) budgetMillis (sound_fromFail nofun) s reads
  have hreads := clientReads_responses fun r hr ↦ (hsound r hr).usual
  refine ⟨fun seen ↦ ⟨fun h ↦ h.unique hreads, ?_⟩, fun r hr ↦ (hsound r hr).body⟩
  rintro rfl
  exact hreads

theorem serveConnection_sound_notReady :
    letI : DebugFormat := ⟨id, fun c ↦ [c]⟩
    let rs := (serveConnection (handleBody notReady (fun _ ↦ 0) .request)
      ⟨.default, .loopbackNoToken, true, 7000⟩ 5000 () [.bytes (Text.asBytes "GET / HTTP/1.1".toList), .timedOut]).2
    (∀ seen, ClientReads (rs.flatMap HttpResponse.toBytes) seen ↔ seen = rs.map fun r ↦ (r.lines, r.body)) ∧
    ∀ r ∈ rs, r.status = 204 ∧ r.body = [] ∨ ∃ v, r.body = Text.asBytes (write v) ∧ ReadBack v :=
  letI : DebugFormat := ⟨id, fun c ↦ [c]⟩
  serveConnection_sound clean_notReady _ _ _ _ _ _

end

end Plaine.Rpc
