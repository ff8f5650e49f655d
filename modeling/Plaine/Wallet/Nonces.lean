import Plaine.Consensus.Bijection
import Plaine.Consensus.Blake3
import Plaine.Lib.Runs
import Plaine.Wallet.Announce

/-!
# One announcement for a nonce

An announcement is released before its line is in the journal.  While no command is cut between the
two, and each uses the key file whose journal has all lines, two announcements with one nonce are
the same.
-/

namespace Plaine.Wallet

open Plaine.Lib Plaine.Consensus

variable {P : Type} {w w' : World P} {key : Signer} {a : Announcement P}
  {tx tx' : AnnouncementTx} {e : Entry} {msg : Hash32}

/-! ## What is signed -/

/-- What the signing message of an announcement is the hash of. -/
def preimage (tx : AnnouncementTx) : Bytes :=
  domainNoteSign ++ Network.main.chainId ++ tx.fromPub.bytes ++ leBytes 16 tx.fee.toNat ++
    leBytes 8 tx.nonce.toNat ++ [tx.encoding] ++ leBytes 2 tx.payload.length ++ tx.payload

/-- The bytes of an announcement but its signature can be told from what is signed. -/
theorem preimage_inj (hpub : tx.fromPub = tx'.fromPub) (h : preimage tx = preimage tx') :
    tx.fee = tx'.fee ∧ tx.nonce = tx'.nonce ∧ tx.encoding = tx'.encoding ∧
      tx.payload = tx'.payload := by
  unfold preimage at h
  rw [hpub] at h
  simp only [List.append_assoc, List.append_cancel_left_eq] at h
  obtain ⟨hfee, h⟩ := List.append_inj h (by rw [length_leBytes, length_leBytes])
  obtain ⟨hnonce, h⟩ := List.append_inj h (by rw [length_leBytes, length_leBytes])
  obtain ⟨hencoding, h⟩ := List.append_inj h rfl
  obtain ⟨-, hpayload⟩ := List.append_inj h (by rw [length_leBytes, length_leBytes])
  refine ⟨?_, ?_, List.singleton_inj.mp hencoding, hpayload⟩
  · have hofLe := congrArg ofLe hfee
    rw [ofLe_leBytes_of_lt tx.fee.isLt, ofLe_leBytes_of_lt tx'.fee.isLt] at hofLe
    exact BitVec.eq_of_toNat_eq hofLe
  · have hofLe := congrArg ofLe hnonce
    rw [ofLe_leBytes_of_lt tx.nonce.toNat_lt, ofLe_leBytes_of_lt tx'.nonce.toNat_lt] at hofLe
    exact UInt64.toNat_inj.mp hofLe

/-- A nonce that passes was recorded with the same message, if it was. -/
theorem checkNonce_spec {entries : List Entry} (h : checkNonce entries a msg = .ok ())
    (hreuse : a.reuseNonce = false) (he : e ∈ entries) (hnonce : e.nonce = a.nonce) :
    e.msgHash = some msg := by
  unfold checkNonce at h
  cases hconflict : conflict entries a.nonce msg with
  | some prev =>
    rw [hconflict] at h
    rw [Except.require_eq_ok.mp h] at hreuse
    cases hreuse
  | none =>
    have hsame := List.find?_eq_none.mp hconflict e he
    rw [decide_eq_true_eq, not_and, not_not] at hsame
    have hany : e.isTheSameStatement msg = true := hsame hnonce
    unfold Entry.isTheSameStatement at hany
    cases hm : e.msgHash with
    | none =>
      rw [hm] at hany
      cases hany
    | some m =>
      rw [hm] at hany
      rw [of_decide_eq_true hany]

/-! ## The journal that is carried -/

section

variable [DecidableEq P]

theorem carryJournal_spec (w : World P) (src dst : P) (copied : Option Nat) :
    (w.carryJournal src dst copied).keyFiles = w.keyFiles ∧
      (w.carryJournal src dst copied).released = w.released ∧
      ∀ p ≠ dst, (w.carryJournal src dst copied).journals p = w.journals p := by
  unfold World.carryJournal
  split
  case h_1 => exact ⟨rfl, rfl, fun p hp ↦ Function.update_of_ne hp _ _⟩
  case h_2 => exact ⟨rfl, rfl, fun _ _ ↦ rfl⟩

/-- The journal of a key file in use is carried whole. -/
theorem carryJournal_whole {src dst : P} (hread : readJournal (w.journals src) = .ok entries)
    (hdst : w.journals dst = none) :
    (w.carryJournal src dst none).journals dst = w.journals src := by
  unfold World.carryJournal
  rw [hread]
  cases hsrc : w.journals src with
  | none => exact hdst
  | some text =>
    refine (Function.update_self _ _ _).trans ?_
    exact congrArg some (List.take_of_length_le le_rfl)

/-- A change of the passphrase leaves all key files but the new one as they are. -/
theorem passphrase_old (w : World P) {dst p : P} (src : P) (fate : PassphraseFate) (hne : p ≠ dst) :
    (w.passphrase src dst fate).keyFiles p = w.keyFiles p ∧
      (w.passphrase src dst fate).journals p = w.journals p ∧
      (w.passphrase src dst fate).released = w.released := by
  unfold World.passphrase
  have hcarry (copied : Option Nat) := carryJournal_spec
    { w with keyFiles := Function.update w.keyFiles dst (some .whole) } src dst copied
  split
  case isFalse => exact ⟨rfl, rfl, rfl⟩
  case isTrue =>
    cases fate with
    | stopped => exact ⟨rfl, rfl, rfl⟩
    | keyTorn => exact ⟨Function.update_of_ne hne _ _, rfl, rfl⟩
    | cut copied =>
      obtain ⟨hkeys, hreleased, hjournals⟩ := hcarry (some copied)
      exact ⟨(congrFun hkeys _).trans (Function.update_of_ne hne _ _), hjournals _ hne, hreleased⟩
    | whole =>
      obtain ⟨hkeys, hreleased, hjournals⟩ := hcarry none
      exact ⟨(congrFun hkeys _).trans (Function.update_of_ne hne _ _), hjournals _ hne, hreleased⟩

end

section

variable [Crypto]

theorem announcementMessageOf_eq_ok : announcementMessageOf .main tx = .ok msg ↔
    tx.checkPayloadLen = .ok tx.payload.length ∧ Crypto.blake3 (preimage tx) = msg := by
  unfold announcementMessageOf AnnouncementTx.checkPayloadLen
  split
  case isTrue =>
    constructor
    · intro h
      exact ⟨rfl, Except.ok.inj h⟩
    · rintro ⟨-, rfl⟩
      rfl
  case isFalse =>
    constructor
    · intro h
      cases h
    · rintro ⟨h, -⟩
      cases h

/-- Two announcements whose signing messages collide. -/
def Collide (tx tx' : AnnouncementTx) : Prop :=
  preimage tx ≠ preimage tx' ∧ Crypto.blake3 (preimage tx) = Crypto.blake3 (preimage tx')

/-- An announcement of the key: it has a message, and the signature of it. -/
structure SignedBy (key : Signer) (msg : Hash32) (tx : AnnouncementTx) : Prop where
  fromPub : tx.fromPub = key.pubkey
  message : announcementMessageOf .main tx = .ok msg
  sig : tx.sig = key.sign msg

/-- Announcements with one message are the same, unless messages collide. -/
theorem SignedBy.eq_or_collide (h : SignedBy key msg tx) (h' : SignedBy key msg tx') :
    tx = tx' ∨ Collide tx tx' := by
  have hhash : Crypto.blake3 (preimage tx) = Crypto.blake3 (preimage tx') :=
    (announcementMessageOf_eq_ok.mp h.message).2.trans (announcementMessageOf_eq_ok.mp h'.message).2.symm
  by_cases hpre : preimage tx = preimage tx'
  · left
    have hpub := h.fromPub.trans h'.fromPub.symm
    have hsig := h.sig.trans h'.sig.symm
    obtain ⟨hfee, hnonce, hencoding, hpayload⟩ := preimage_inj hpub hpre
    cases tx
    cases tx'
    cases hpub
    cases hsig
    cases hfee
    cases hnonce
    cases hencoding
    cases hpayload
    rfl
  · exact .inr ⟨hpre, hhash⟩

/-! ## One announcement -/

theorem buildAnnouncement_spec {author : Arr 32} {payload : Bytes} {encoding : UInt8} {fee : U128}
    {nonce : UInt64}
    (h : buildAnnouncement .main key author payload encoding fee nonce = .ok tx) :
    tx.nonce = nonce ∧ ∃ msg, SignedBy key msg tx := by
  unfold buildAnnouncement at h
  simp only [Except.bind_eq_ok, Except.require_eq_ok, Except.mapError_eq_ok] at h
  obtain ⟨-, -, -, -, -, -, msg, hmsg, -, -, -, -, -, -, -, -, h⟩ := h
  cases h
  exact ⟨rfl, msg, rfl, hmsg, rfl⟩

/-- What `announce` releases is new for its nonce, or was recorded with the same message. -/
theorem prepare_spec (h : w.prepare key a = .ok (tx, e)) :
    tx.nonce = a.nonce ∧ ∃ entries msg, readJournal (w.journals a.key) = .ok entries ∧
      SignedBy key msg tx ∧ e.nonce = a.nonce ∧ e.msgHash = some msg ∧
      (a.reuseNonce = false → ∀ e' ∈ entries, e'.nonce = a.nonce → e'.msgHash = some msg) := by
  unfold World.prepare at h
  simp only [Except.bind_eq_ok, Except.require_eq_ok, Except.mapError_eq_ok] at h
  obtain ⟨-, -, msg, -, entries, hentries, ⟨⟩, hfree, tx₁, hbuild, msg₁, hmsg₁, -, rfl, txid, -, h⟩ := h
  cases h
  obtain ⟨hnonce, msg₂, hsigned⟩ := buildAnnouncement_spec hbuild
  obtain rfl := Except.ok.inj (hsigned.message.symm.trans hmsg₁)
  exact ⟨hnonce, entries, msg₂, hentries, hsigned, rfl, rfl,
    fun hreuse e' he' hn ↦ checkNonce_spec hfree hreuse he' hn⟩

/-! ## Runs -/

/-- The world, and the key file in use. -/
structure Author (P : Type) where
  world : World P
  inUse : P

namespace Author

variable {s : Author P} {entries : List Entry} {c : Command P}

/-- The key file in use after a command: a new one when a change of the passphrase ran to its
end. -/
def next [DecidableEq P] (s : Author P) : Command P → P
  | .passphrase src dst .whole =>
    if src = s.inUse ∧ s.world.MayRotate src dst then dst else s.inUse
  | _ => s.inUse

/-- One command. -/
def step [DecidableEq P] (key : Signer) (s : Author P) (c : Command P) : Author P where
  world := s.world.exec key c
  inUse := s.next c

/-- An announcement names the key file in use, and does not reuse a nonce on purpose. -/
def Uses (s : Author P) : Command P → Prop
  | .announce a _ => a.key = s.inUse ∧ a.reuseNonce = false
  | .passphrase .. => True

/-- An announcement is not cut between its release and the end of its line. -/
def Completes (s : Author P) (c : Command P) : Prop :=
  s.Uses c ∧ ∀ a written, c ≠ .announce a (.cut written)

/-- The journal of the key file in use has a line for each announcement that was released. -/
structure Recorded (key : Signer) (entries : List Entry) (s : Author P) : Prop where
  keyFile : s.world.keyFiles s.inUse = some .whole
  journal : s.world.journals s.inUse = none ∧ entries = [] ∨
    s.world.journals s.inUse = some (entries.flatMap Entry.render)
  released : ∀ tx ∈ s.world.released, ∃ msg, SignedBy key msg tx ∧
    ∃ e ∈ entries, e.nonce = tx.nonce ∧ e.msgHash = some msg
  agree : ∀ tx ∈ s.world.released, ∀ tx' ∈ s.world.released, tx.nonce = tx'.nonce →
    tx = tx' ∨ Collide tx tx'

theorem Recorded.read (h : s.Recorded key entries) :
    readJournal (s.world.journals s.inUse) = .ok entries := by
  rcases h.journal with ⟨hnone, rfl⟩ | hsome
  · rw [hnone]
    rfl
  · rw [hsome, readJournal_render]

/-- What may be released next agrees with what was. -/
theorem Recorded.agree_release (h : s.Recorded key entries) (hkey : a.key = s.inUse)
    (hreuse : a.reuseNonce = false) (hprepare : s.world.prepare key a = .ok (tx, e)) :
    ∀ tx₁ ∈ s.world.released ++ [tx], ∀ tx₂ ∈ s.world.released ++ [tx], tx₁.nonce = tx₂.nonce →
      tx₁ = tx₂ ∨ Collide tx₁ tx₂ := by
  obtain ⟨hnonce, entries', msg, hread, hsigned, -, -, hfree⟩ := prepare_spec hprepare
  rw [hkey, h.read] at hread
  obtain rfl := Except.ok.inj hread
  have hold : ∀ tx₁ ∈ s.world.released, tx₁.nonce = tx.nonce → SignedBy key msg tx₁ := by
    intro tx₁ htx₁ hsame
    obtain ⟨msg₁, hsigned₁, e₁, he₁, hn₁, hm₁⟩ := h.released tx₁ htx₁
    have hmsg := hfree hreuse e₁ he₁ (hn₁.trans (hsame.trans hnonce))
    obtain rfl := Option.some.inj (hm₁.symm.trans hmsg)
    exact hsigned₁
  intro tx₁ htx₁ tx₂ htx₂ hsame
  rcases List.mem_append.mp htx₁ with h₁ | h₁ <;> rcases List.mem_append.mp htx₂ with h₂ | h₂
  · exact h.agree tx₁ h₁ tx₂ h₂ hsame
  · obtain rfl := List.mem_singleton.mp h₂
    exact (hold tx₁ h₁ hsame).eq_or_collide hsigned
  · obtain rfl := List.mem_singleton.mp h₁
    exact hsigned.eq_or_collide (hold tx₂ h₂ hsame.symm)
  · obtain rfl := List.mem_singleton.mp h₁
    obtain rfl := List.mem_singleton.mp h₂
    exact .inl rfl

/-- Files that are not those of the key file in use do not matter. -/
theorem Recorded.congr (h : s.Recorded key entries)
    (hfile : w'.keyFiles s.inUse = s.world.keyFiles s.inUse)
    (hjournal : w'.journals s.inUse = s.world.journals s.inUse)
    (hreleased : w'.released = s.world.released) :
    ({ s with world := w' } : Author P).Recorded key entries where
  keyFile := hfile.trans h.keyFile
  journal := by
    rw [hjournal]
    exact h.journal
  released := by
    rw [hreleased]
    exact h.released
  agree := by
    rw [hreleased]
    exact h.agree

/-- A key file with a journal, or without one; nothing has been released. -/
def Starts (s : Author P) : Prop :=
  s.world.keyFiles s.inUse = some .whole ∧ s.world.released = [] ∧
    (s.world.journals s.inUse = none ∨
      ∃ entries : List Entry, s.world.journals s.inUse = some (entries.flatMap Entry.render))

theorem Starts.recorded (h : s.Starts) : ∃ entries, s.Recorded key entries := by
  obtain ⟨hfile, hreleased, hjournal⟩ := h
  have hnone : ∀ tx, tx ∉ s.world.released := fun tx htx ↦ by
    rw [hreleased] at htx
    cases htx
  rcases hjournal with hnil | ⟨entries, hentries⟩
  · exact ⟨[], hfile, .inl ⟨hnil, rfl⟩, fun tx htx ↦ absurd htx (hnone tx),
      fun tx htx ↦ absurd htx (hnone tx)⟩
  · exact ⟨entries, hfile, .inr hentries, fun tx htx ↦ absurd htx (hnone tx),
      fun tx htx ↦ absurd htx (hnone tx)⟩

variable [DecidableEq P]

/-- An announcement that is released whole is recorded. -/
theorem Recorded.announce (h : s.Recorded key entries) (hkey : a.key = s.inUse)
    (hreuse : a.reuseNonce = false) (hprepare : s.world.prepare key a = .ok (tx, e)) :
    ({ s with world := { s.world with
        released := s.world.released ++ [tx]
        journals := Function.update s.world.journals a.key
          (appendJournal (s.world.journals a.key) e e.render.length) } } : Author P).Recorded key
      (entries ++ [e]) where
  keyFile := h.keyFile
  journal := by
    right
    rw [hkey]
    dsimp only
    rw [Function.update_self]
    rcases h.journal with ⟨hnone, rfl⟩ | hsome
    · rw [hnone]
      exact appendJournal_render [] e le_rfl
    · rw [hsome]
      exact appendJournal_render entries e le_rfl
  released := by
    obtain ⟨hnonce, entries', msg, -, hsigned, hn, hm, -⟩ := prepare_spec hprepare
    intro tx' htx'
    rcases List.mem_append.mp htx' with hold | hnew
    · obtain ⟨msg', hsigned', e', he', hrest⟩ := h.released tx' hold
      exact ⟨msg', hsigned', e', List.mem_append_left _ he', hrest⟩
    · obtain rfl := List.mem_singleton.mp hnew
      exact ⟨msg, hsigned, e, List.mem_append_right _ (List.mem_singleton_self e),
        hn.trans hnonce.symm, hm⟩
  agree := h.agree_release hkey hreuse hprepare

theorem Recorded.passphrase (h : s.Recorded key entries) (src dst : P) (fate : PassphraseFate) :
    (s.step key (.passphrase src dst fate)).Recorded key entries := by
  by_cases hrotates : s.world.MayRotate src dst
  · have hne : s.inUse ≠ dst := by
      rintro rfl
      cases h.keyFile.symm.trans hrotates.2.1
    obtain ⟨hfile, hjournal, hreleased⟩ := passphrase_old s.world src fate hne
    by_cases hnew : fate = .whole ∧ src = s.inUse
    · obtain ⟨rfl, rfl⟩ := hnew
      have hnext : s.next (.passphrase s.inUse dst .whole) = dst := if_pos ⟨rfl, hrotates⟩
      have hworld : s.world.passphrase s.inUse dst .whole = World.carryJournal
          { s.world with keyFiles := Function.update s.world.keyFiles dst (some .whole) }
          s.inUse dst none := if_pos hrotates
      have hcarried : (s.world.passphrase s.inUse dst .whole).journals dst =
          s.world.journals s.inUse := by
        rw [hworld]
        exact carryJournal_whole h.read hrotates.2.2.1
      have hkey : (s.world.passphrase s.inUse dst .whole).keyFiles dst = some .whole := by
        rw [hworld, (carryJournal_spec _ _ _ _).1]
        exact Function.update_self _ _ _
      unfold step
      rw [hnext]
      exact {
        keyFile := hkey
        journal := hcarried.symm ▸ h.journal
        released := hreleased.symm ▸ h.released
        agree := hreleased.symm ▸ h.agree }
    · have hnext : s.next (.passphrase src dst fate) = s.inUse := by
        cases fate with
        | stopped | keyTorn | cut => rfl
        | whole => exact if_neg fun hsame ↦ hnew ⟨rfl, hsame.1⟩
      unfold step
      rw [hnext]
      exact h.congr hfile hjournal hreleased
  · have hnext : s.next (.passphrase src dst fate) = s.inUse := by
      cases fate with
      | stopped | keyTorn | cut => rfl
      | whole => exact if_neg fun hsame ↦ hrotates hsame.2
    have hworld : s.world.passphrase src dst fate = s.world := if_neg hrotates
    unfold step
    rw [hnext]
    exact h.congr (congrArg (·.keyFiles s.inUse) hworld) (congrArg (·.journals s.inUse) hworld)
      (congrArg (·.released) hworld)

/-- A command that completes is recorded. -/
theorem Recorded.step (h : s.Recorded key entries) (hc : s.Completes c) :
    ∃ entries', (s.step key c).Recorded key entries' := by
  cases c with
  | passphrase src dst fate => exact ⟨entries, h.passphrase src dst fate⟩
  | announce a fate =>
    obtain ⟨⟨hkey, hreuse⟩, hwhole⟩ := hc
    change ∃ entries', ({ s with world := s.world.announce key a fate } : Author P).Recorded key
      entries'
    unfold World.announce
    cases hprepare : s.world.prepare key a with
    | error => exact ⟨entries, h⟩
    | ok r =>
      obtain ⟨tx, e⟩ := r
      cases fate with
      | stopped => exact ⟨entries, h⟩
      | cut written => exact absurd rfl (hwhole a written)
      | whole => exact ⟨entries ++ [e], h.announce hkey hreuse hprepare⟩

/-- However far a command gets, what has been released agrees. -/
theorem Recorded.agree_exec (h : s.Recorded key entries) (hc : s.Uses c) :
    ∀ tx ∈ (s.step key c).world.released, ∀ tx' ∈ (s.step key c).world.released,
      tx.nonce = tx'.nonce → tx = tx' ∨ Collide tx tx' := by
  cases c with
  | passphrase src dst fate => exact (h.passphrase src dst fate).agree
  | announce a fate =>
    change ∀ tx ∈ (s.world.announce key a fate).released, ∀ tx' ∈
      (s.world.announce key a fate).released, _
    unfold World.announce
    cases hprepare : s.world.prepare key a with
    | error => exact h.agree
    | ok r =>
      obtain ⟨tx, e⟩ := r
      cases fate with
      | stopped => exact h.agree
      | cut | whole => exact h.agree_release hc.1 hc.2 hprepare

end Author

end

/-! ## A key, and two announcements -/

namespace Sample

/-- The public key of an author. -/
def pubkey : Arr 32 :=
  .ofNat 32 0x8a88e3dd7409f195fd52db2d3cba5d72ca6709bf1d94121bf3748801b40f6f5c

/-- The message of the announcement `a` at nonce 7. -/
def message : Hash32 :=
  .ofNat 32 0x646f9ea0c14a095e3c9c8ea3fb119d35ad2ce072cf47449a988bf37115b679ec

/-- The message of the announcement `b` at nonce 7. -/
def message' : Hash32 :=
  .ofNat 32 0x5fa7aa1f63757ab9012311d12db0cae56a0fb62a7feab17adb54870c9949feb1

/-- The author's signatures of the two messages. -/
def signer : Signer where
  pubkey := pubkey
  sign msg :=
    if msg = message then .ofNat 64
      0xd7d274a5e423f865fea7a6dd968d8690a24d3e4f262d64b338fd29ba6b0d80defc4b2d3f9f20e231b8eb09a50818da51f603c7ab59d66b66252bfacdd9038f0d
    else .ofNat 64
      0x7deec51c5f6f7fccaf4850bfbd2678aafcb8de858efe26f5640532e55459bd0546b60ca91b5c40688baa6f03987830fe9e86efb12e6f3bdbd92d47528f11fd00

/-- The primitives, with the two signatures known to verify. -/
@[reducible]
def crypto : Crypto :=
  .ofSignatures ([message, message'].map fun m ↦ (pubkey, m.bytes, signer.sign m))

/-- An announcement of one byte at nonce 7, with the lowest fee. -/
def announcement (byte : UInt8) : Announcement Unit where
  key := ()
  author := pubkey
  payload := [byte]
  encoding := 1
  fee := 1
  nonce := 7
  reuseNonce := false
  time := 1765432100

/-- A key file that was never used. -/
def author : Author Unit where
  world := { keyFiles := fun _ ↦ some .whole, journals := fun _ ↦ none, released := [] }
  inUse := ()

end Sample

end Plaine.Wallet
