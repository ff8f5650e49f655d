import Mathlib.Logic.Function.Basic
import Plaine.Consensus.Tx
import Plaine.Wallet.Journal

/-!
# Announcements of the wallet

`cmd_announce` and `cmd_passphrase` of `wallet/src/wallet_cli.rs`: an announcement is checked
against the journal beside the key file, signed, released, and then recorded; a key file under a new
passphrase gets a copy of the journal.  A command may be killed, or fail, at any point.
-/

namespace Plaine.Wallet

open Plaine.Lib Plaine.Consensus

/-- A seed, by what it is used for.  The signatures of a seed are a function of the message. -/
structure Signer where
  pubkey : Arr 32
  sign : Hash32 → Arr 64

/-- The errors of `cmd_announce` after its arguments are read. -/
inductive AnnounceError where
  | keyFile
  | payload (e : CodecError)
  | journal (e : JournalError)
  | nonceUsed (prev : Entry)
  | feeBelowFloor (fee : U128)
  | notAPubkey
  | notTheAuthor
  | selfVerification (e : TxError)
  | codec (e : CodecError)
  | roundTrip
  | messageChanged
deriving DecidableEq

/-- The arguments of `announce`, and the time of the clock.  Key files go by their paths. -/
structure Announcement (P : Type) where
  key : P
  author : Arr 32
  payload : Bytes
  encoding : UInt8
  fee : U128
  nonce : UInt64
  reuseNonce : Bool
  time : UInt64

/-- A key file, and one that was not written to its end. -/
inductive KeyFile where
  | whole
  | torn
deriving DecidableEq

/-- The key files and the journals beside them, and the announcements that were released. -/
structure World (P : Type) where
  keyFiles : P → Option KeyFile
  journals : P → Option Text
  released : List AnnouncementTx

/-- How far an announcement gets.  One that is cut has been released, and the first characters of
its line have reached the journal. -/
inductive AnnounceFate where
  | stopped
  | cut (written : Nat)
  | whole
deriving DecidableEq

/-- How far a change of the passphrase gets: to a part of the key file, or of the journal. -/
inductive PassphraseFate where
  | stopped
  | keyTorn
  | cut (copied : Nat)
  | whole
deriving DecidableEq

/-- A command. -/
inductive Command (P : Type) where
  | announce (a : Announcement P) (fate : AnnounceFate)
  | passphrase (src dst : P) (fate : PassphraseFate)

section

variable [Crypto] {P : Type}

/-- `txbuild::build_announcement`. -/
def buildAnnouncement (network : Network) (key : Signer) (author : Arr 32) (payload : Bytes)
    (encoding : UInt8) (fee : U128) (nonce : UInt64) : Except AnnounceError AnnouncementTx := do
  Except.require (feeFloorMile ≤ fee.toNat) (.feeBelowFloor fee)
  Except.require (Crypto.validKey author = true) .notAPubkey
  Except.require (key.pubkey = author) .notTheAuthor
  let unsigned : AnnouncementTx :=
    { fromPub := key.pubkey, fee, nonce, encoding, payload, sig := .zero 64 }
  let msg ← (announcementMessageOf network unsigned).mapError .payload
  let tx := { unsigned with sig := key.sign msg }
  (checkAnnouncementStateless network tx author).mapError .selfVerification
  let encoded ← tx.encode.mapError .codec
  let decoded ← (AnnouncementTx.decode encoded).mapError .codec
  Except.require (decoded = tx) .roundTrip
  return tx

/-- The journal in `cmd_announce`: the nonce is free, was used for the same message, or is used again
on purpose. -/
def checkNonce (entries : List Entry) (a : Announcement P) (msgHash : Hash32) :
    Except AnnounceError Unit :=
  match conflict entries a.nonce msgHash with
  | none => .ok ()
  | some prev => Except.require (a.reuseNonce = true) (.nonceUsed prev)

namespace World

/-- `cmd_announce` up to the output: what is released, and what is recorded then. -/
def prepare (w : World P) (key : Signer) (a : Announcement P) :
    Except AnnounceError (AnnouncementTx × Entry) := do
  Except.require (w.keyFiles a.key = some .whole) .keyFile
  let msgHash ← (announcementMessageOf .main
    { fromPub := key.pubkey, fee := a.fee, nonce := a.nonce, encoding := a.encoding,
      payload := a.payload, sig := .zero 64 }).mapError .payload
  let entries ← (readJournal (w.journals a.key)).mapError .journal
  checkNonce entries a msgHash
  let tx ← buildAnnouncement .main key a.author a.payload a.encoding a.fee a.nonce
  let signedMsg ← (announcementMessageOf .main tx).mapError .codec
  Except.require (signedMsg = msgHash) .messageChanged
  let txid ← tx.txid.mapError .codec
  let payloadHash := Crypto.blake3 a.payload
  return (tx, { time := a.time, nonce := a.nonce, txid, payloadHash, msgHash := some signedMsg })

/-- `cmd_announce`: the announcement is released, and then its line is appended. -/
def announce (w : World P) [DecidableEq P] (key : Signer) (a : Announcement P)
    (fate : AnnounceFate) : World P :=
  match w.prepare key a, fate with
  | .error _, _ | _, .stopped => w
  | .ok (tx, e), .cut written =>
    { w with
      released := w.released ++ [tx]
      journals := Function.update w.journals a.key (appendJournal (w.journals a.key) e written) }
  | .ok (tx, e), .whole =>
    { w with
      released := w.released ++ [tx]
      journals := Function.update w.journals a.key
        (appendJournal (w.journals a.key) e e.render.length) }

/-- The checks of `cmd_passphrase`: the new key file and its journal do not exist, and the old key
file can be read. -/
def MayRotate (w : World P) (src dst : P) : Prop :=
  src ≠ dst ∧ w.keyFiles dst = none ∧ w.journals dst = none ∧ w.keyFiles src = some .whole

instance [DecidableEq P] (w : World P) (src dst : P) : Decidable (w.MayRotate src dst) :=
  inferInstanceAs (Decidable (_ ∧ _))

/-- `carry_journal`, which copies at most so many characters.  A journal that cannot be read is not
copied. -/
def carryJournal [DecidableEq P] (w : World P) (src dst : P) (copied : Option Nat) : World P :=
  match w.journals src, readJournal (w.journals src) with
  | some text, .ok _ =>
    { w with journals := Function.update w.journals dst (some (text.take (copied.getD text.length))) }
  | _, _ => w

/-- `cmd_passphrase`: the new key file is written, and then the journal is copied. -/
def passphrase [DecidableEq P] (w : World P) (src dst : P) (fate : PassphraseFate) : World P :=
  if w.MayRotate src dst then
    let written := { w with keyFiles := Function.update w.keyFiles dst (some .whole) }
    match fate with
    | .stopped => w
    | .keyTorn => { w with keyFiles := Function.update w.keyFiles dst (some .torn) }
    | .cut copied => written.carryJournal src dst (some copied)
    | .whole => written.carryJournal src dst none
  else w

/-- One command. -/
def exec [DecidableEq P] (w : World P) (key : Signer) : Command P → World P
  | .announce a fate => w.announce key a fate
  | .passphrase src dst fate => w.passphrase src dst fate

end World

end

end Plaine.Wallet
