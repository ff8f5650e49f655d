import Plaine.Consensus.Constants
import Plaine.Lib.Result
import Plaine.Lib.Text

/-!
# The announcement journal

`wallet/src/journal.rs`: beside a key file stands a text with a line for each announcement that was
signed with the key.  What was appended is read back.
-/

namespace Plaine.Wallet

open Plaine.Lib Plaine.Lib.Text Plaine.Consensus

/-- `journal::Entry`.  Old entries have no signed message. -/
structure Entry where
  time : UInt64
  nonce : UInt64
  txid : Hash32
  payloadHash : Hash32
  msgHash : Option Hash32
deriving DecidableEq

/-- The errors of `Entry::parse`, with the number of the line. -/
inductive JournalError where
  | notKeyValue (lineno : Nat) (field : Text)
  | unknownField (lineno : Nat) (key : Text)
  | notANumber (lineno : Nat) (field : Text)
  | notHex (lineno : Nat) (field : Text)
  | not32Bytes (lineno : Nat) (field : Text)
  | missing (lineno : Nat) (field : Text)
deriving DecidableEq

/-! ## Fields -/

/-- `time`. -/
def keyTime : Text := ['t', 'i', 'm', 'e']

/-- `nonce`. -/
def keyNonce : Text := ['n', 'o', 'n', 'c', 'e']

/-- `txid`. -/
def keyTxid : Text := ['t', 'x', 'i', 'd']

/-- `payload_b3`. -/
def keyPayload : Text := ['p', 'a', 'y', 'l', 'o', 'a', 'd', '_', 'b', '3']

/-- `msg_b3`. -/
def keyMsg : Text := ['m', 's', 'g', '_', 'b', '3']

/-- A field of a line. -/
def keyValue (key value : Text) : Text := key ++ '=' :: value

/-- `hash32`. -/
def hash32 (v : Text) (lineno : Nat) (field : Text) : Except JournalError Hash32 :=
  match hexDecode v with
  | none => .error (.notHex lineno field)
  | some bytes =>
    if h : bytes.length = 32 then .ok ⟨bytes, h⟩ else .error (.not32Bytes lineno field)

namespace Entry

/-- The fields of an entry. -/
def fields (e : Entry) : List Text :=
  [keyValue keyTime (Text.decimal e.time.toNat), keyValue keyNonce (Text.decimal e.nonce.toNat),
    keyValue keyTxid (hexEncode e.txid.bytes),
    keyValue keyPayload (hexEncode e.payloadHash.bytes)] ++
  (e.msgHash.map fun m ↦ keyValue keyMsg (hexEncode m.bytes)).toList

/-- `Entry::render`. -/
def render (e : Entry) : Text := unwords e.fields ++ ['\n']

/-- `Entry::is_the_same_statement`. -/
def isTheSameStatement (e : Entry) (msgHash : Hash32) : Bool := e.msgHash.any (· = msgHash)

/-- `Entry::predates_message_recording`. -/
def predatesMessageRecording (e : Entry) : Bool := e.msgHash.isNone

/-- The fields that `parse` has found. -/
structure Found where
  time : Option UInt64
  nonce : Option UInt64
  txid : Option Hash32
  payloadHash : Option Hash32
  msgHash : Option Hash32

/-- One field in `parse`. -/
def field (lineno : Nat) (found : Found) (field : Text) : Except JournalError Found :=
  if '=' ∉ field then .error (.notKeyValue lineno field)
  else
    let k := field.takeWhile (· ≠ '=')
    let v := (field.dropWhile (· ≠ '=')).tail
    if k = keyTime then
      (Except.ofOption (.notANumber lineno keyTime) (parseU64 v)).map ({ found with time := some · })
    else if k = keyNonce then
      (Except.ofOption (.notANumber lineno keyNonce) (parseU64 v)).map
        ({ found with nonce := some · })
    else if k = keyTxid then (hash32 v lineno keyTxid).map ({ found with txid := some · })
    else if k = keyPayload then
      (hash32 v lineno keyPayload).map ({ found with payloadHash := some · })
    else if k = keyMsg then (hash32 v lineno keyMsg).map ({ found with msgHash := some · })
    else .error (.unknownField lineno k)

/-- `Entry::parse`. -/
def parse (line : Text) (lineno : Nat) : Except JournalError Entry := do
  let found ← (words line).foldlM (field lineno) ⟨none, none, none, none, none⟩
  return {
    time := ← Except.ofOption (.missing lineno keyTime) found.time
    nonce := ← Except.ofOption (.missing lineno keyNonce) found.nonce
    txid := ← Except.ofOption (.missing lineno keyTxid) found.txid
    payloadHash := ← Except.ofOption (.missing lineno keyPayload) found.payloadHash
    msgHash := found.msgHash }

end Entry

/-! ## The file -/

/-- The loop of `read`, from a line on. -/
def parseLines : Nat → List Text → Except JournalError (List Entry)
  | _, [] => .ok []
  | lineno, line :: ls =>
    if line.all isWhite then parseLines (lineno + 1) ls
    else do
      let e ← Entry.parse line lineno
      return e :: (← parseLines (lineno + 1) ls)

/-- `journal::read`; without a file there are no entries. -/
def readJournal : Option Text → Except JournalError (List Entry)
  | none => .ok []
  | some text => parseLines 1 (lines text)

/-- `journal::append`, where the first characters of the line reach the file. -/
def appendJournal (file : Option Text) (e : Entry) (written : Nat) : Option Text :=
  some (file.getD [] ++ e.render.take written)

/-- `journal::conflict`. -/
def conflict (entries : List Entry) (nonce : UInt64) (msgHash : Hash32) : Option Entry :=
  entries.find? fun e ↦ e.nonce = nonce ∧ ¬e.isTheSameStatement msgHash

/-! ## What is read back -/

theorem hash32_hexEncode (h : Hash32) (lineno : Nat) (field : Text) :
    hash32 (hexEncode h.bytes) lineno field = .ok h := by
  unfold hash32
  rw [hexDecode_hexEncode]
  exact dif_pos h.length_eq

theorem isWord_keyValue {key v : Text} (hkey : ∀ c ∈ key, isWhite c = false)
    (hv : ∀ c ∈ v, isWhite c = false) : IsWord (keyValue key v) := by
  refine ⟨fun h ↦ ?_, fun c hc ↦ ?_⟩
  · exact List.cons_ne_nil _ _ (List.append_eq_nil_iff.mp h).2
  · rcases List.mem_append.mp hc with hc | hc
    · exact hkey c hc
    · rcases List.mem_cons.mp hc with rfl | hc
      · decide
      · exact hv c hc

/-- What all letters of a word are found to be. -/
theorem forall_mem_of_all {p : Char → Prop} [DecidablePred p] {w : Text}
    (h : w.all (fun c ↦ decide (p c)) = true) : ∀ c ∈ w, p c := fun c hc ↦
  of_decide_eq_true (List.all_eq_true.mp h c hc)

/-- A field is split at its first equals sign. -/
theorem split_keyValue {key : Text} (hkey : ∀ c ∈ key, c ≠ '=') (v : Text) :
    (keyValue key v).takeWhile (· ≠ '=') = key ∧
      ((keyValue key v).dropWhile (· ≠ '=')).tail = v := by
  have hall : ∀ c ∈ key, decide (c ≠ '=') = true := fun c hc ↦ decide_eq_true (hkey c hc)
  constructor
  · rw [keyValue, List.takeWhile_append_of_pos hall]
    exact List.append_nil key
  · rw [keyValue, List.dropWhile_append_of_pos hall]
    rfl

namespace Entry

variable {lineno : Nat}

theorem field_keyValue {key : Text} (hkey : ∀ c ∈ key, c ≠ '=') (found : Found) (v : Text) :
    field lineno found (keyValue key v) =
      if key = keyTime then
        (Except.ofOption (.notANumber lineno keyTime) (parseU64 v)).map
          ({ found with time := some · })
      else if key = keyNonce then
        (Except.ofOption (.notANumber lineno keyNonce) (parseU64 v)).map
          ({ found with nonce := some · })
      else if key = keyTxid then (hash32 v lineno keyTxid).map ({ found with txid := some · })
      else if key = keyPayload then
        (hash32 v lineno keyPayload).map ({ found with payloadHash := some · })
      else if key = keyMsg then (hash32 v lineno keyMsg).map ({ found with msgHash := some · })
      else .error (.unknownField lineno key) := by
  have hmem : '=' ∈ keyValue key v := List.mem_append_right key List.mem_cons_self
  unfold field
  rw [if_neg (not_not_intro hmem)]
  dsimp only
  rw [(split_keyValue hkey v).1, (split_keyValue hkey v).2]

theorem field_time (found : Found) (n : UInt64) :
    field lineno found (keyValue keyTime (Text.decimal n.toNat)) = .ok { found with time := some n } := by
  rw [field_keyValue (forall_mem_of_all rfl), if_pos rfl, parseU64_decimal]
  rfl

theorem field_nonce (found : Found) (n : UInt64) :
    field lineno found (keyValue keyNonce (Text.decimal n.toNat)) =
      .ok { found with nonce := some n } := by
  rw [field_keyValue (forall_mem_of_all rfl), if_neg (by decide), if_pos rfl, parseU64_decimal]
  rfl

theorem field_txid (found : Found) (h : Hash32) :
    field lineno found (keyValue keyTxid (hexEncode h.bytes)) =
      .ok { found with txid := some h } := by
  rw [field_keyValue (forall_mem_of_all rfl), if_neg (by decide), if_neg (by decide), if_pos rfl,
    hash32_hexEncode]
  rfl

theorem field_payload (found : Found) (h : Hash32) :
    field lineno found (keyValue keyPayload (hexEncode h.bytes)) =
      .ok { found with payloadHash := some h } := by
  rw [field_keyValue (forall_mem_of_all rfl), if_neg (by decide), if_neg (by decide), if_neg (by decide),
    if_pos rfl, hash32_hexEncode]
  rfl

theorem field_msg (found : Found) (h : Hash32) :
    field lineno found (keyValue keyMsg (hexEncode h.bytes)) =
      .ok { found with msgHash := some h } := by
  rw [field_keyValue (forall_mem_of_all rfl), if_neg (by decide), if_neg (by decide), if_neg (by decide),
    if_neg (by decide), if_pos rfl, hash32_hexEncode]
  rfl

theorem isWord_of_mem_fields {e : Entry} {w : Text} (h : w ∈ e.fields) : IsWord w := by
  have hdecimal (n : Nat) : ∀ c ∈ Text.decimal n, isWhite c = false :=
    fun c hc ↦ isWhite_of_isDigit (isDigit_of_mem_decimal hc)
  have hhex (b : Bytes) : ∀ c ∈ hexEncode b, isWhite c = false :=
    fun c hc ↦ isWhite_of_mem_hexEncode hc
  rcases List.mem_append.mp h with h | h
  · simp only [List.mem_cons, List.not_mem_nil, or_false] at h
    rcases h with rfl | rfl | rfl | rfl
    · exact isWord_keyValue (forall_mem_of_all rfl) (hdecimal _)
    · exact isWord_keyValue (forall_mem_of_all rfl) (hdecimal _)
    · exact isWord_keyValue (forall_mem_of_all rfl) (hhex _)
    · exact isWord_keyValue (forall_mem_of_all rfl) (hhex _)
  · obtain ⟨m, -, rfl⟩ := Option.mem_map.mp (Option.mem_toList.mp h)
    exact isWord_keyValue (forall_mem_of_all rfl) (hhex _)

/-- A line that was rendered is parsed back. -/
theorem parse_fields (e : Entry) : parse (unwords e.fields) lineno = .ok e := by
  obtain ⟨time, nonce, txid, payloadHash, msgHash⟩ := e
  unfold parse
  rw [words_unwords fun w hw ↦ isWord_of_mem_fields hw]
  unfold fields
  rw [List.foldlM_append]
  simp only [List.foldlM_cons, List.foldlM_nil, field_time, field_nonce, field_txid, field_payload,
    Except.ok_bind]
  cases msgHash with
  | none => rfl
  | some m =>
    simp only [Option.map_some, Option.toList_some, List.foldlM_cons, List.foldlM_nil, field_msg]
    rfl

theorem line_of_mem_fields {e : Entry} {c : Char} (h : c ∈ unwords e.fields) :
    isWhite c = false ∨ c = ' ' :=
  mem_unwords (fun _ hw ↦ isWord_of_mem_fields hw) h

theorem isLine_fields (e : Entry) : IsLine (unwords e.fields) := by
  constructor
  · rintro c hc rfl
    rcases line_of_mem_fields hc with h | h <;> cases h
  · intro hlast
    rcases line_of_mem_fields (List.mem_of_mem_getLast? hlast) with h | h <;> cases h

theorem not_blank_fields (e : Entry) : (unwords e.fields).all isWhite = false := by
  rw [List.all_eq_false]
  exact ⟨'t', List.mem_cons_self, by decide⟩

end Entry

theorem parseLines_map (es : List Entry) (lineno : Nat) :
    parseLines lineno (es.map fun e ↦ unwords e.fields) = .ok es := by
  induction es generalizing lineno with
  | nil => rfl
  | cons e es ih =>
    rw [List.map_cons, parseLines, e.not_blank_fields, if_neg Bool.false_ne_true, e.parse_fields,
      Except.ok_bind, ih]
    rfl

/-- A journal is read back entry by entry. -/
theorem readJournal_render (es : List Entry) :
    readJournal (some (es.flatMap Entry.render)) = .ok es := by
  have hlines : lines (es.flatMap Entry.render) = es.map fun e ↦ unwords e.fields := by
    have hmap : es.flatMap Entry.render =
        (es.map fun e ↦ unwords e.fields).flatMap (· ++ ['\n']) := by
      rw [List.flatMap_map]
      rfl
    rw [hmap, lines_flatMap]
    intro l hl
    obtain ⟨e, -, rfl⟩ := List.mem_map.mp hl
    exact e.isLine_fields
  rw [readJournal, hlines, parseLines_map]

/-- An entry that is appended whole is read back behind the others. -/
theorem appendJournal_render (es : List Entry) (e : Entry) {written : Nat}
    (h : e.render.length ≤ written) :
    appendJournal (some (es.flatMap Entry.render)) e written =
      some ((es ++ [e]).flatMap Entry.render) := by
  rw [appendJournal, List.take_of_length_le h, List.flatMap_append, List.flatMap_singleton]
  rfl

end Plaine.Wallet
