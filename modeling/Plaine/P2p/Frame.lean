import Plaine.P2p.Wire
import Plaine.Lib.Framing

/-!
# Frames

`wire/frame.rs` and the read loop of a connection: a frame is a header of ten bytes and its payload,
and the bytes of a connection come in chunks.
-/

namespace Plaine.P2p

open Plaine.Lib Plaine.Consensus

/-- `FRAME_HEADER_BYTES`. -/
def frameHeaderBytes : Nat := 10

/-- `FrameHeader`. -/
structure FrameHeader where
  cmd : Cmd
  length : UInt32
deriving DecidableEq

/-- `parse_frame_header`. -/
def parseFrameHeader (buf : Arr frameHeaderBytes) (magic : Arr 4) : Except WireError FrameHeader := do
  Except.require (buf.bytes.take 4 = magic.bytes) .badMagic
  let cmd ← Except.ofOption (.unknownCommand (buf.bytes.getD 4 0)) (Cmd.fromCode (buf.bytes.getD 4 0))
  Except.require (buf.bytes.getD 5 0 = 0x00) (.nonZeroFlags (buf.bytes.getD 5 0))
  let length := UInt32.ofNat (leAt 4 6 buf.bytes)
  Except.require (length.toNat ≤ maxP2pMsgBytes) (.oversizeAbsolute length.toNat)
  Except.require (length.toNat ≤ cmd.payloadCap) (.oversize cmd length.toNat cmd.payloadCap)
  return { cmd, length }

/-- `encode_frame`. -/
def encodeFrame (magic : Arr 4) (cmd : Cmd) (payload : Bytes) : Bytes :=
  magic.bytes ++ (cmd.code :: 0x00 :: (leBytes 4 payload.length ++ payload))

open Framing

variable {magic : Arr 4} {b rest t payload : Bytes} {cmd : Cmd} {m : Msg} {e : WireError}

/-! ## Headers -/

/-- The first arm of a chain, or a later one. -/
theorem eq_some_of_ite {α : Type} {c k : UInt8} {x y : α} {o : Option α}
    (h : (if c = k then some x else o) = some y) : (c = k ∧ x = y) ∨ o = some y := by
  split at h
  case isTrue hc => exact .inl ⟨hc, Option.some.inj h⟩
  case isFalse => exact .inr h

theorem Cmd.fromCode_eq_some {c : UInt8} : Cmd.fromCode c = some cmd ↔ c = cmd.code := by
  constructor
  · intro h
    repeat'
      obtain ⟨hc, rfl⟩ | h := eq_some_of_ite h
      · exact hc
    cases h
  · rintro rfl
    exact Cmd.fromCode_code cmd

/-- The fields of a header. -/
theorem header_fields (buf : Arr frameHeaderBytes) :
    buf.bytes = buf.bytes.take 4 ++
      (buf.bytes.getD 4 0 :: buf.bytes.getD 5 0 :: leBytes 4 (leAt 4 6 buf.bytes)) := by
  have hlen : buf.bytes.length = 10 := buf.length_eq
  have hfour : 4 < buf.bytes.length := hlen ▸ (by decide)
  have hfive : 5 < buf.bytes.length := hlen ▸ (by decide)
  have hdrop : (buf.bytes.drop 6).length = 4 := by rw [List.length_drop, hlen]
  have hnum : leBytes 4 (leAt 4 6 buf.bytes) = buf.bytes.drop 6 := by
    rw [leAt, List.take_of_length_le hdrop.le]
    nth_rewrite 1 [← hdrop]
    exact leBytes_ofLe _
  rw [hnum, ← List.getElem_eq_getD (h := hfour) 0, ← List.getElem_eq_getD (h := hfive) 0,
    ← List.drop_eq_getElem_cons hfive, ← List.drop_eq_getElem_cons hfour, List.take_append_drop]

/-- A header is accepted with the command and the length that it spells, if the length is within
the cap. -/
theorem parseFrameHeader_eq_ok {buf : Arr frameHeaderBytes} {fh : FrameHeader} :
    parseFrameHeader buf magic = .ok fh ↔ fh.length.toNat ≤ fh.cmd.payloadCap ∧
      buf.bytes = magic.bytes ++ (fh.cmd.code :: 0x00 :: leBytes 4 fh.length.toNat) := by
  have hlt : leAt 4 6 buf.bytes < 2 ^ 32 := by
    refine (ofLe_lt _).trans_le ?_
    exact Nat.pow_le_pow_right (by decide) (List.length_take_le _ _)
  have hfields := header_fields buf
  have hfour : (buf.bytes.take 4).length = magic.bytes.length := by
    rw [List.length_take, buf.length_eq, magic.length_eq]
    rfl
  simp only [parseFrameHeader, Except.bind_eq_ok, Except.require_eq_ok, Except.ofOption_eq_ok,
    Cmd.fromCode_eq_some]
  constructor
  · rintro ⟨_, hmagic, cmd, hcmd, _, hflags, _, -, _, hcap, h⟩
    cases h
    refine ⟨hcap, ?_⟩
    rw [hmagic, hcmd, hflags] at hfields
    rwa [UInt32.toNat_ofNat_of_lt' hlt]
  · rintro ⟨hcap, hbytes⟩
    obtain ⟨hmagic, htail⟩ := List.append_inj (hfields.symm.trans hbytes) hfour
    obtain ⟨hcmd, htail⟩ := List.cons.inj htail
    obtain ⟨hflags, hlen⟩ := List.cons.inj htail
    have hlength : leAt 4 6 buf.bytes = fh.length.toNat := by
      rw [← ofLe_leBytes_of_lt (k := 4) hlt, hlen, ofLe_leBytes_of_lt fh.length.toNat_lt]
    have hofNat : UInt32.ofNat (leAt 4 6 buf.bytes) = fh.length := by
      rw [hlength, UInt32.ofNat_toNat]
    rw [hofNat]
    exact ⟨(), hmagic, fh.cmd, hcmd, (), hflags, (), hcap.trans (Cmd.payloadCap_le _), (), hcap, rfl⟩

/-- A frame whose payload is within the cap of its command. -/
def Fits (f : Cmd × Bytes) : Prop := f.2.length ≤ f.1.payloadCap

theorem Fits.length_lt {f : Cmd × Bytes} (h : Fits f) : f.2.length < 2 ^ 32 :=
  (Nat.le_trans h (Cmd.payloadCap_le _)).trans_lt (by decide)

/-- The header of a frame is accepted. -/
theorem parseFrameHeader_encodeFrame (h : Fits (cmd, payload)) :
    parseFrameHeader (Arr.ofSlice frameHeaderBytes 0 (encodeFrame magic cmd payload ++ rest)) magic =
      .ok { cmd, length := UInt32.ofNat payload.length } := by
  have hlen : (UInt32.ofNat payload.length).toNat = payload.length :=
    UInt32.toNat_ofNat_of_lt' h.length_lt
  let head : Arr frameHeaderBytes :=
    ⟨magic.bytes ++ (cmd.code :: 0x00 :: leBytes 4 payload.length), by
      simp [magic.length_eq, frameHeaderBytes]⟩
  have hhead : Arr.ofSlice frameHeaderBytes 0 (encodeFrame magic cmd payload ++ rest) = head := by
    rw [← @Arr.ofSlice_append _ head [] (payload ++ rest) 0 rfl]
    simp only [encodeFrame, head, List.append_assoc, List.cons_append, List.nil_append]
  rw [hhead, parseFrameHeader_eq_ok]
  exact ⟨hlen.symm ▸ h, by rw [hlen]⟩

/-! ## The reader -/

/-- One round of the loop of `FrameReader::push`: the next frame and what stays pending. -/
def nextFrame (magic : Arr 4) (pending : Bytes) :
    Except WireError (Option ((Cmd × Bytes) × Bytes)) :=
  if pending.length < frameHeaderBytes then .ok none
  else do
    let fh ← parseFrameHeader (Arr.ofSlice frameHeaderBytes 0 pending) magic
    let total := frameHeaderBytes + fh.length.toNat
    if pending.length < total then return none
    return some ((fh.cmd, (pending.take total).drop frameHeaderBytes), pending.drop total)

/-- The header of a frame. -/
def frameHeader (magic : Arr 4) (f : Cmd × Bytes) : Bytes :=
  magic.bytes ++ (f.1.code :: 0x00 :: leBytes 4 f.2.length)

/-- The bytes of a frame. -/
def frameBytes (magic : Arr 4) (f : Cmd × Bytes) : Bytes := encodeFrame magic f.1 f.2

theorem length_frameHeader (magic : Arr 4) (f : Cmd × Bytes) :
    (frameHeader magic f).length = frameHeaderBytes := by
  simp [frameHeader, magic.length_eq, frameHeaderBytes]

theorem frameBytes_eq (magic : Arr 4) (f : Cmd × Bytes) :
    frameBytes magic f = frameHeader magic f ++ f.2 := by
  simp only [frameBytes, encodeFrame, frameHeader, List.append_assoc, List.cons_append]

theorem length_frameBytes (magic : Arr 4) (f : Cmd × Bytes) :
    (frameBytes magic f).length = frameHeaderBytes + f.2.length := by
  rw [frameBytes_eq, List.length_append, length_frameHeader]

theorem nextFrame_frameBytes {f : Cmd × Bytes} (h : Fits f) :
    nextFrame magic (frameBytes magic f ++ rest) = .ok (some (f, rest)) := by
  have hlen := length_frameBytes magic f
  have hnum : (UInt32.ofNat f.2.length).toNat = f.2.length :=
    UInt32.toNat_ofNat_of_lt' h.length_lt
  have hhead : parseFrameHeader (Arr.ofSlice frameHeaderBytes 0 (frameBytes magic f ++ rest)) magic =
      .ok { cmd := f.1, length := UInt32.ofNat f.2.length } := parseFrameHeader_encodeFrame h
  have hle : frameHeaderBytes + f.2.length ≤ (frameBytes magic f ++ rest).length := by
    rw [List.length_append, hlen]
    exact Nat.le_add_right _ _
  have hpayload : (frameBytes magic f).drop frameHeaderBytes = f.2 := by
    rw [frameBytes_eq, ← length_frameHeader magic f, List.drop_left]
  rw [nextFrame, if_neg (Nat.le_of_add_right_le hle).not_gt, hhead]
  simp only [Except.ok_bind, hnum]
  rw [if_neg hle.not_gt, ← hlen, List.take_left, List.drop_left, hpayload]
  rfl

theorem ofSlice_take {n : Nat} (h : n ≤ b.length) : (Arr.ofSlice n 0 b).bytes = b.take n := by
  show (b.drop 0 ++ List.replicate n 0).take n = b.take n
  rw [List.drop_zero, List.take_append_of_le_length h]

theorem nextFrame_eq_frame {f : Cmd × Bytes} :
    nextFrame magic b = .ok (some (f, rest)) ↔ Fits f ∧ b = frameBytes magic f ++ rest := by
  constructor
  · intro h
    unfold nextFrame at h
    split at h
    case isTrue => cases h
    case isFalse hten =>
    obtain ⟨fh, hfh, h⟩ := Except.bind_eq_ok.mp h
    obtain ⟨hcap, hbytes⟩ := parseFrameHeader_eq_ok.mp hfh
    rw [ofSlice_take (Nat.le_of_not_lt hten)] at hbytes
    dsimp only at h
    split at h
    case isTrue => cases h
    case isFalse htotal =>
    cases h
    have hpayload : ((b.take (frameHeaderBytes + fh.length.toNat)).drop frameHeaderBytes).length =
        fh.length.toNat := by
      rw [List.length_drop, List.length_take_of_le (Nat.le_of_not_lt htotal), Nat.add_sub_cancel_left]
    refine ⟨hpayload.trans_le hcap, ?_⟩
    have hhead : frameHeader magic
        (fh.cmd, (b.take (frameHeaderBytes + fh.length.toNat)).drop frameHeaderBytes) =
          (b.take (frameHeaderBytes + fh.length.toNat)).take frameHeaderBytes := by
      rw [List.take_take, Nat.min_eq_left (Nat.le_add_right _ _), hbytes, frameHeader, hpayload]
    rw [frameBytes_eq, hhead, List.take_append_drop, List.take_append_drop]
  · rintro ⟨hfits, rfl⟩
    exact nextFrame_frameBytes hfits

/-- An error is the one of the first header. -/
theorem nextFrame_eq_error : nextFrame magic b = .error e ↔ frameHeaderBytes ≤ b.length ∧
    parseFrameHeader (Arr.ofSlice frameHeaderBytes 0 b) magic = .error e := by
  unfold nextFrame
  split
  case isTrue h =>
    refine iff_of_false (fun h ↦ by cases h) fun hle ↦ ?_
    exact h.not_ge hle.1
  case isFalse h =>
    rw [and_iff_right (Nat.le_of_not_lt h)]
    cases parseFrameHeader (Arr.ofSlice frameHeaderBytes 0 b) magic with
    | error e' => rw [Except.error_bind, Except.error.injEq, Except.error.injEq]
    | ok fh =>
      refine iff_of_false ?_ (fun h ↦ by cases h)
      simp only [Except.ok_bind]
      split <;> exact fun h ↦ by cases h

theorem nextFrame_append_error (t : Bytes) (h : nextFrame magic b = .error e) :
    nextFrame magic (b ++ t) = .error e := by
  obtain ⟨hle, herr⟩ := nextFrame_eq_error.mp h
  have hle' : frameHeaderBytes ≤ (b ++ t).length := by
    rw [List.length_append]
    exact Nat.le_add_right_of_le hle
  have hslice : Arr.ofSlice frameHeaderBytes 0 (b ++ t) = Arr.ofSlice frameHeaderBytes 0 b := by
    ext1
    rw [ofSlice_take hle, ofSlice_take hle', List.take_append_of_le_length hle]
  rw [nextFrame_eq_error, hslice]
  exact ⟨hle', herr⟩

/-- What was found at the front of a connection stays so. -/
theorem stable_nextFrame (magic : Arr 4) : Framing.Stable (nextFrame magic) where
  cut h := by
    obtain ⟨-, rfl⟩ := nextFrame_eq_frame.mp h
    rw [List.length_append, length_frameBytes, frameHeaderBytes]
    omega
  frame t h := by
    obtain ⟨hfits, rfl⟩ := nextFrame_eq_frame.mp h
    rw [List.append_assoc]
    exact nextFrame_frameBytes hfits
  error := nextFrame_append_error

/-- The loop of `FrameReader::push`: the frames, what stays pending, and the error it breaks with. -/
def drain (magic : Arr 4) (pending : Bytes) : List (Cmd × Bytes) × Bytes × Option WireError :=
  match h : nextFrame magic pending with
  | .error e => ([], pending, some e)
  | .ok none => ([], pending, none)
  | .ok (some (f, rest)) =>
    have : rest.length < pending.length := (stable_nextFrame magic).cut h
    let (out, pending, r) := drain magic rest
    (f :: out, pending, r)
termination_by pending.length

/-- `FrameReader`. -/
structure FrameReader where
  magic : Arr 4
  pending : Bytes
deriving DecidableEq

namespace FrameReader

/-- `FrameReader::new`. -/
def new (magic : Arr 4) : FrameReader := { magic, pending := [] }

/-- `FrameReader::push`.  The frames taken off before an error are dropped with it. -/
def push (r : FrameReader) (bytes : Bytes) : FrameReader × Except WireError (List (Cmd × Bytes)) :=
  let (out, pending, res) := drain r.magic (r.pending ++ bytes)
  ({ r with pending }, match res with
    | none => .ok out
    | some e => .error e)

/-- The read loop of a connection: the frames handed on from the chunks it reads, and the error it
ends with. -/
def readLoop (r : FrameReader) : List Bytes → List (Cmd × Bytes) × Option WireError
  | [] => ([], none)
  | chunk :: chunks =>
    match r.push chunk with
    | (_, .error e) => ([], some e)
    | (r', .ok frames) =>
      let (later, e) := readLoop r' chunks
      (frames ++ later, e)

end FrameReader

open FrameReader

variable {fs gs : List (Cmd × Bytes)} {o : Option WireError} {chunks chunks' : List Bytes}

/-- The loop drains what is pending. -/
theorem drain_drains (magic : Arr 4) (pending : Bytes) :
    Drains (nextFrame magic) pending (drain magic pending).1 (drain magic pending).2.1
      (drain magic pending).2.2 := by
  fun_induction drain magic pending with
  | case1 pending e h => exact .error h
  | case2 pending h => exact .more h
  | case3 pending f rest h _ out pending' r hd ih =>
    rw [hd] at ih
    exact .frame h ih

theorem readLoop_feeds (r : FrameReader) (chunks : List Bytes) :
    Feeds (nextFrame r.magic) r.pending chunks (r.readLoop chunks).1 (r.readLoop chunks).2 := by
  induction chunks generalizing r with
  | nil => exact .nil
  | cons chunk chunks ih =>
    have hd := drain_drains r.magic (r.pending ++ chunk)
    rw [readLoop, push]
    generalize drain r.magic (r.pending ++ chunk) = d at hd ⊢
    obtain ⟨out, pending, _ | e⟩ := d
    · exact .cons hd (ih { r with pending })
    · exact .error hd

theorem readLoop_of_feeds {r : FrameReader} (h : Feeds (nextFrame r.magic) r.pending chunks fs o) :
    r.readLoop chunks = (fs, o) := by
  obtain ⟨hfs, ho⟩ := (readLoop_feeds r chunks).unique h
  exact Prod.ext hfs ho

/-! ## Segmentation -/

/-- Frames at the front of a stream are drained first. -/
theorem drains_frames {rest' : Bytes} (hfits : ∀ f ∈ fs, Fits f)
    (h : Drains (nextFrame magic) rest gs rest' o) :
    Drains (nextFrame magic) (fs.flatMap (frameBytes magic) ++ rest) (fs ++ gs) rest' o := by
  induction fs with
  | nil => exact h
  | cons f fs ih =>
    obtain ⟨hf, hfits⟩ := List.forall_mem_cons.mp hfits
    rw [List.flatMap_cons, List.append_assoc]
    exact .frame (nextFrame_frameBytes hf) (ih hfits)

/-- What is drained is well-formed frames from the front of the stream. -/
theorem frames_of_drains (h : Drains (nextFrame magic) b fs rest o) :
    (∀ f ∈ fs, Fits f) ∧ b = fs.flatMap (frameBytes magic) ++ rest := by
  induction h with
  | more => exact ⟨fun _ h ↦ (by cases h), rfl⟩
  | error => exact ⟨fun _ h ↦ (by cases h), rfl⟩
  | frame hn _ ih =>
    obtain ⟨hf, rfl⟩ := nextFrame_eq_frame.mp hn
    exact ⟨List.forall_mem_cons.mpr ⟨hf, ih.1⟩, by
      rw [List.flatMap_cons, List.append_assoc, ← ih.2]⟩

/-- A stream with no malformed header at its front or behind well-formed frames there. -/
def Sound (magic : Arr 4) (b : Bytes) : Prop :=
  ∀ (fs : List (Cmd × Bytes)) (rest : Bytes), (∀ f ∈ fs, Fits f) →
    b = fs.flatMap (frameBytes magic) ++ rest → frameHeaderBytes ≤ rest.length →
      ∃ fh, parseFrameHeader (Arr.ofSlice frameHeaderBytes 0 rest) magic = .ok fh

/-- The frames `fs` at the front of the stream are there at the end of a chunk, and no malformed
header is. -/
def OnTime (magic : Arr 4) (chunks : List Bytes) (fs : List (Cmd × Bytes)) : Prop :=
  ∃ arrived, arrived <+: chunks ∧ Sound magic arrived.flatten ∧
    fs.flatMap (frameBytes magic) <+: arrived.flatten

/-- A stream is sound if it is drained without an error. -/
theorem sound_iff : Sound magic b ↔ ∃ fs rest, Drains (nextFrame magic) b fs rest none := by
  constructor
  · intro hsound
    obtain ⟨fs, rest, _ | e, hd⟩ := Drains.exists_of_stable (stable_nextFrame magic) b
    · exact ⟨fs, rest, hd⟩
    · obtain ⟨hle, herr⟩ := nextFrame_eq_error.mp hd.next_error
      obtain ⟨hfits, hb⟩ := frames_of_drains hd
      obtain ⟨fh, hok⟩ := hsound fs rest hfits hb hle
      cases herr.symm.trans hok
  · rintro ⟨gs, rest', hd⟩ fs rest hfits rfl hle
    cases hp : parseFrameHeader (Arr.ofSlice frameHeaderBytes 0 rest) magic with
    | ok fh => exact ⟨fh, rfl⟩
    | error e =>
      have herr := drains_frames hfits (.error (nextFrame_eq_error.mpr ⟨hle, hp⟩))
      cases (hd.unique herr).2.2

theorem drains_nil (magic : Arr 4) : Drains (nextFrame magic) [] [] [] none := .more rfl

/-- The frames handed on are those that are on time. -/
theorem onTime_iff (hfits : ∀ f ∈ fs, Fits f) :
    OnTime magic chunks fs ↔ fs <+: ((new magic).readLoop chunks).1 := by
  have hfeeds := readLoop_feeds (new magic) chunks
  have hstable := stable_nextFrame magic
  constructor
  · rintro ⟨arrived, hpre, hsound, t, ht⟩
    obtain ⟨hs, rest, hd⟩ := sound_iff.mp hsound
    obtain ⟨ks, rest', o, hk⟩ := Drains.exists_of_stable hstable t
    have hall := drains_frames hfits hk
    rw [ht] at hall
    obtain ⟨rfl, rfl, rfl⟩ := hd.unique hall
    have hdel := hfeeds.delivered hstable (drains_nil magic) hpre hd
    exact (List.prefix_append fs ks).trans hdel
  · rintro ⟨ks, hks⟩
    obtain ⟨arrived, rest, hpre, hd⟩ := hfeeds.arrived hstable (drains_nil magic)
    refine ⟨arrived, hpre, sound_iff.mpr ⟨_, _, hd⟩, ?_⟩
    have hb := (frames_of_drains hd).2
    rw [← hks, List.flatMap_append, List.append_assoc] at hb
    exact ⟨_, hb.symm⟩

theorem fits_of_readLoop : ∀ f ∈ ((new magic).readLoop chunks).1, Fits f := by
  obtain ⟨_, _, -, hd⟩ :=
    (readLoop_feeds (new magic) chunks).arrived (stable_nextFrame magic) (drains_nil magic)
  exact (frames_of_drains hd).1

/-- However a stream is cut, reading it ends with the same error. -/
theorem readLoop_error_eq (h : chunks.flatten = chunks'.flatten) :
    ((new magic).readLoop chunks).2 = ((new magic).readLoop chunks').2 := by
  have hstable := stable_nextFrame magic
  obtain ⟨_, _, hd⟩ := (readLoop_feeds (new magic) chunks).error_eq hstable (drains_nil magic)
  obtain ⟨_, _, hd'⟩ := (readLoop_feeds (new magic) chunks').error_eq hstable (drains_nil magic)
  rw [h] at hd
  exact (hd.unique hd').2.2

/-- A message within the caps that is whole goes through a frame, and what a payload is decoded to
is encoded to the payload. -/
theorem decode_iff_encode (magic : Arr 4) (m : Msg) :
    (m.WithinCaps → m.Whole → decode m.cmd (encode m) = .ok m ∧
      (encode m).length ≤ m.cmd.payloadCap ∧
      parseFrameHeader (Arr.ofSlice frameHeaderBytes 0 (encodeFrame magic m.cmd (encode m))) magic =
        .ok { cmd := m.cmd, length := UInt32.ofNat (encode m).length } ∧
      (UInt32.ofNat (encode m).length).toNat = (encode m).length ∧
      (encodeFrame magic m.cmd (encode m)).drop frameHeaderBytes = encode m) ∧
    ∀ cmd b, decode cmd b = .ok m → m.cmd = cmd ∧ m.WithinCaps ∧ m.Whole ∧ encode m = b := by
  constructor
  · intro hcaps hwhole
    have hfits : Fits (m.cmd, encode m) := length_encode_le hcaps
    have hheader := @parseFrameHeader_encodeFrame magic [] _ _ hfits
    rw [List.append_nil] at hheader
    refine ⟨decode_eq_ok.mpr ⟨rfl, hwhole, hcaps, rfl⟩, hfits, hheader,
      UInt32.toNat_ofNat_of_lt' hfits.length_lt, ?_⟩
    have hbytes := frameBytes_eq magic (m.cmd, encode m)
    rw [frameBytes] at hbytes
    rw [hbytes, ← length_frameHeader magic (m.cmd, encode m), List.drop_left]
  · intro cmd b h
    obtain ⟨rfl, hwhole, hcaps, rfl⟩ := decode_eq_ok.mp h
    exact ⟨rfl, hcaps, hwhole, rfl⟩

/-- A PING. -/
theorem decode_iff_encode_ping :
    decode .ping (encode (.ping 7)) = .ok (.ping 7) ∧ encode (.ping 7) = leBytes 8 7 :=
  ⟨((decode_iff_encode ⟨[1, 2, 3, 4], rfl⟩ (.ping 7)).1 trivial trivial).1,
    ((decode_iff_encode ⟨[1, 2, 3, 4], rfl⟩ (.ping 7)).2 .ping (leBytes 8 7) (by decide)).2.2.2⟩

/-- A block without a header is within the caps and is not decoded, and the header of a frame has no
checksum: two payloads of one length have the same. -/
theorem decode_refuses_short_block :
    (¬ ∀ m : Msg, m.WithinCaps → decode m.cmd (encode m) = .ok m) ∧
      encode (.ping 7) ≠ encode (.ping 8) ∧
      (encodeFrame ⟨[1, 2, 3, 4], rfl⟩ .ping (encode (.ping 7))).take frameHeaderBytes =
        (encodeFrame ⟨[1, 2, 3, 4], rfl⟩ .ping (encode (.ping 8))).take frameHeaderBytes := by
  refine ⟨fun h ↦ ?_, by decide, by decide⟩
  cases h (.block []) (Nat.zero_le _)

end Plaine.P2p
