import NbdServer.Protocol.Wire

/-!
# Transmission requests and replies

Model of `nbd-protocol/src/transmission.rs`: the request header with its validation, the encoders of
the client, the two parsers of the server (`parse_request_header` on the header alone and
`parse_request` on header and payload) and the simple replies. A header is parsed exactly from its
encoding (`parseRequestHeader_eq_ok`), so the second parser sees the header that the first one
returned.
-/

namespace NbdServer

open Lib Wire

/-- Rust `NBD_REQUEST_MAGIC`. -/
def NBD_REQUEST_MAGIC : UInt32 := 0x25609513

/-- Rust `NBD_SIMPLE_REPLY_MAGIC`. -/
def NBD_SIMPLE_REPLY_MAGIC : UInt32 := 0x67446698

/-- Rust `NBD_CMD_READ`. -/
def NBD_CMD_READ : UInt16 := 0

/-- Rust `NBD_CMD_WRITE`. -/
def NBD_CMD_WRITE : UInt16 := 1

/-- Rust `NBD_CMD_DISC`. -/
def NBD_CMD_DISC : UInt16 := 2

/-- Rust `NBD_CMD_FLUSH`. -/
def NBD_CMD_FLUSH : UInt16 := 3

/-- Rust `NBD_EINVAL`. -/
def NBD_EINVAL : UInt32 := 22

/-- Rust `REQUEST_HEADER_BYTES`. -/
def REQUEST_HEADER_BYTES : Nat := 28

/-- Rust `SIMPLE_REPLY_BYTES`. -/
def SIMPLE_REPLY_BYTES : Nat := 16

/-- Rust `MAX_IO_BYTES`. -/
def MAX_IO_BYTES : UInt32 := 64 * 1024 * 1024

/-- Rust `RequestHeader`. -/
structure RequestHeader where
  flags : UInt16
  command : UInt16
  cookie : NbdCookie
  offset : UInt64
  length : UInt32
  deriving DecidableEq

/-- Rust `TransmissionRequest`. -/
inductive TransmissionRequest where
  | read (cookie : NbdCookie) (offset : UInt64) (length : UInt32)
  | write (cookie : NbdCookie) (offset : UInt64) (data : Buf)
  | flush (cookie : NbdCookie)
  | disconnect (cookie : NbdCookie)
  deriving DecidableEq

/-- Rust `SimpleReply`. -/
structure SimpleReply where
  cookie : NbdCookie
  error : UInt32
  deriving DecidableEq

/-- Rust `validate_common_header`. -/
def validateCommonHeader (header : RequestHeader) : Parsed Unit :=
  if header.flags ≠ 0 then .error (.unsupportedCommandFlags header.flags) else .ok ()

/-- Rust `validate_nonzero_len`. -/
def validateNonzeroLen (command : String) (length : UInt32) : Parsed Unit :=
  if length = 0 then .error (.invalidRequest command "zero length is unsupported") else .ok ()

/-- Rust `validate_effect_range`. -/
def validateEffectRange (offset : UInt64) (length : UInt32) : Parsed Unit :=
  match checkedAdd offset.toNat length.toNat with
  | some _ => .ok ()
  | none => .error (.lengthOverflow offset length)

/-- Rust `validate_io_len`. -/
def validateIoLen (field : String) (length maxIoBytes : UInt32) : Parsed Unit :=
  if length > maxIoBytes then .error (.lengthTooLarge field length.toNat maxIoBytes.toNat) else
    .ok ()

/-- Rust `validate_no_range`. -/
def validateNoRange (command : String) (offset : UInt64) (length : UInt32) : Parsed Unit :=
  if offset ≠ 0 ∨ length ≠ 0 then
    .error (.invalidRequest command "offset and length must be zero")
  else .ok ()

/-- Rust `RequestHeader::payload_len`. -/
def RequestHeader.payloadLen (h : RequestHeader) (maxIoBytes : UInt32) : Parsed Nat := do
  validateCommonHeader h
  if h.command = NBD_CMD_READ then
    validateNonzeroLen "NBD_CMD_READ" h.length
    validateEffectRange h.offset h.length
    validateIoLen "read length" h.length maxIoBytes
    pure 0
  else if h.command = NBD_CMD_WRITE then
    validateNonzeroLen "NBD_CMD_WRITE" h.length
    validateEffectRange h.offset h.length
    validateIoLen "write payload" h.length maxIoBytes
    pure h.length.toNat
  else if h.command = NBD_CMD_FLUSH then
    validateNoRange "NBD_CMD_FLUSH" h.offset h.length
    pure 0
  else if h.command = NBD_CMD_DISC then
    validateNoRange "NBD_CMD_DISC" h.offset h.length
    pure 0
  else .error (.unsupportedCommand h.command)

/-- Rust `encode_request_header`. -/
def encodeRequestHeader (h : RequestHeader) : Buf :=
  writeU32 NBD_REQUEST_MAGIC ++ writeU16 h.flags ++ writeU16 h.command ++ writeU64 h.cookie ++
    writeU64 h.offset ++ writeU32 h.length

/-- Rust `encode_read_request`. -/
def encodeReadRequest (cookie : NbdCookie) (offset : UInt64) (length : UInt32) : Parsed Buf := do
  let header : RequestHeader := ⟨0, NBD_CMD_READ, cookie, offset, length⟩
  let _ ← header.payloadLen MAX_IO_BYTES
  pure (encodeRequestHeader header)

/-- Rust `encode_write_request`. -/
def encodeWriteRequest (cookie : NbdCookie) (offset : UInt64) (data : Buf) : Parsed Buf := do
  if U32 ≤ data.length then
    throw (.lengthTooLarge "write payload" data.length (U32 - 1))
  let header : RequestHeader := ⟨0, NBD_CMD_WRITE, cookie, offset, .ofNat data.length⟩
  let _ ← header.payloadLen MAX_IO_BYTES
  pure (encodeRequestHeader header ++ data)

/-- Rust `encode_zero_range_request`. -/
def encodeZeroRangeRequest (cookie : NbdCookie) (command : UInt16) : Parsed Buf := do
  let header : RequestHeader := ⟨0, command, cookie, 0, 0⟩
  let _ ← header.payloadLen MAX_IO_BYTES
  pure (encodeRequestHeader header)

/-- Rust `encode_flush_request`. -/
def encodeFlushRequest (cookie : NbdCookie) : Parsed Buf :=
    encodeZeroRangeRequest cookie NBD_CMD_FLUSH

/-- Rust `encode_disconnect_request`. -/
def encodeDisconnectRequest (cookie : NbdCookie) : Parsed Buf :=
  encodeZeroRangeRequest cookie NBD_CMD_DISC

/-- Rust `parse_header`. -/
def parseHeader : WireM RequestHeader := do
  let magic ← readU32
  if magic ≠ NBD_REQUEST_MAGIC then
    throw (.invalidMagic "transmission request" NBD_REQUEST_MAGIC.toNat magic.toNat)
  let flags ← readU16
  let command ← readU16
  let cookie ← readU64
  let offset ← readU64
  let length ← readU32
  pure ⟨flags, command, cookie, offset, length⟩

/-- Rust `require_no_payload`. -/
def requireNoPayload : WireM Unit := do
  let unread ← get
  if unread.length ≠ 0 then
    throw (.trailingBytes unread.length)

/-- Rust `parse_request_header`. -/
def parseRequestHeader (input : Buf) : Parsed RequestHeader :=
  StateT.run' (do
    let header ← parseHeader
    requireNoPayload
    pure header) input

/-- Rust `parse_request` on a reader. -/
def parseRequestFrom (maxIoBytes : UInt32) : WireM TransmissionRequest := do
  let header ← parseHeader
  let payloadLen ← header.payloadLen maxIoBytes
  if header.command = NBD_CMD_READ then
    requireNoPayload
    pure (.read header.cookie header.offset header.length)
  else if header.command = NBD_CMD_WRITE then
    let data ← readBytes payloadLen
    requireNoPayload
    pure (.write header.cookie header.offset data)
  else if header.command = NBD_CMD_FLUSH then
    requireNoPayload
    pure (.flush header.cookie)
  else if header.command = NBD_CMD_DISC then
    requireNoPayload
    pure (.disconnect header.cookie)
  else throw (.unsupportedCommand header.command)

/-- Rust `parse_request`. -/
def parseRequest (input : Buf) (maxIoBytes : UInt32) : Parsed TransmissionRequest :=
  StateT.run' (parseRequestFrom maxIoBytes) input

/-- Rust `encode_simple_reply`. -/
def encodeSimpleReply (cookie : NbdCookie) (error : UInt32) : Buf :=
  writeU32 NBD_SIMPLE_REPLY_MAGIC ++ writeU32 error ++ writeU64 cookie

/-- Rust `encode_read_reply`. -/
def encodeReadReply (cookie : NbdCookie) (data : Buf) : Buf := encodeSimpleReply cookie 0 ++ data

/-- Rust `parse_simple_reply`. -/
def parseSimpleReply (input : Buf) : Parsed SimpleReply :=
  StateT.run' (do
    let magic ← readU32
    if magic ≠ NBD_SIMPLE_REPLY_MAGIC then
      throw (.invalidMagic "simple reply" NBD_SIMPLE_REPLY_MAGIC.toNat magic.toNat)
    let error ← readU32
    let cookie ← readU64
    requireNoPayload
    pure ⟨cookie, error⟩) input

namespace TransmissionRequest

/-- Rust `TransmissionRequest::cookie`. -/
def cookie : TransmissionRequest → NbdCookie
  | read cookie _ _ | write cookie _ _ | flush cookie | disconnect cookie => cookie

def encode : TransmissionRequest → Parsed Buf
  | read cookie offset length => encodeReadRequest cookie offset length
  | write cookie offset data => encodeWriteRequest cookie offset data
  | flush cookie => encodeFlushRequest cookie
  | disconnect cookie => encodeDisconnectRequest cookie

/-- The header that the client sends for the request. -/
def header : TransmissionRequest → RequestHeader
  | read cookie offset length => ⟨0, NBD_CMD_READ, cookie, offset, length⟩
  | write cookie offset data => ⟨0, NBD_CMD_WRITE, cookie, offset, .ofNat data.length⟩
  | flush cookie => ⟨0, NBD_CMD_FLUSH, cookie, 0, 0⟩
  | disconnect cookie => ⟨0, NBD_CMD_DISC, cookie, 0, 0⟩

def payload : TransmissionRequest → Buf
  | write _ _ data => data
  | _ => []

end TransmissionRequest

@[simp] lemma length_encodeRequestHeader (h : RequestHeader) :
    (encodeRequestHeader h).length = REQUEST_HEADER_BYTES := by
  simp [encodeRequestHeader, REQUEST_HEADER_BYTES]

@[simp] lemma length_encodeSimpleReply (cookie : NbdCookie) (error : UInt32) :
    (encodeSimpleReply cookie error).length = SIMPLE_REPLY_BYTES := by
  simp [encodeSimpleReply, SIMPLE_REPLY_BYTES]

section Parse

variable {s rest : Buf}

lemma guard_eq_ok {α : Type} {p : Prop} [Decidable p] {e : ProtocolError} {x : WireM α}
    {r : α × Buf} :
    (do if p then throw e
        x : WireM α) s = .ok r ↔ ¬ p ∧ x s = .ok r := by
  split
  · rename_i h
    refine ⟨fun h' => (nomatch h'), fun h' => absurd h h'.1⟩
  · rename_i h
    exact ⟨fun h' => ⟨h, h'⟩, fun h' => h'.2⟩

lemma parseHeader_eq_ok {h : RequestHeader} :
    parseHeader s = .ok (h, rest) ↔ s = encodeRequestHeader h ++ rest := by
  simp only [parseHeader, parse_bind_eq_ok, guard_eq_ok, readU16_eq_ok, readU32_eq_ok,
    readU64_eq_ok, parse_pure_eq_ok, encodeRequestHeader, List.append_assoc]
  constructor
  · rintro ⟨magic, _, rfl, same, flags, _, rfl, command, _, rfl, cookie, _, rfl, offset, _, rfl,
      length, _, rfl, rfl, rfl⟩
    rw [not_not.1 same]
  · rintro rfl
    exact ⟨_, _, rfl, not_not.2 rfl, _, _, rfl, _, _, rfl, _, _, rfl, _, _, rfl, _, _, rfl, rfl,
      rfl⟩

lemma requireNoPayload_eq_ok {u : Unit} : requireNoPayload s = .ok (u, rest) ↔ s = [] ∧
    rest = [] := by
  cases s with
  | nil =>
    show Except.ok ((), []) = Except.ok (u, rest) ↔ _
    simp [eq_comm]
  | cons b s => exact ⟨fun h => (nomatch h), fun h => nomatch h.1⟩

lemma run'_eq_ok {α : Type} {x : WireM α} {a : α} :
    StateT.run' x s = .ok a ↔ ∃ rest, x s = .ok (a, rest) := by
  show ((fun p => p.1) <$> x s : Except ProtocolError α) = .ok a ↔ _
  cases x s with
  | error e => simp [Functor.map, Except.map]
  | ok p =>
    obtain ⟨b, rest⟩ := p
    simp [Functor.map, Except.map]

lemma parseRequestHeader_eq_ok {h : RequestHeader} :
    parseRequestHeader s = .ok h ↔ s = encodeRequestHeader h := by
  simp only [parseRequestHeader, run'_eq_ok, parse_bind_eq_ok, parseHeader_eq_ok,
    requireNoPayload_eq_ok, parse_pure_eq_ok]
  constructor
  · rintro ⟨_, header, _, rfl, _, _, ⟨rfl, rfl⟩, rfl, rfl⟩
    rw [List.append_nil]
  · rintro rfl
    exact ⟨[], h, [], (List.append_nil _).symm, (), [], ⟨rfl, rfl⟩, rfl, rfl⟩

lemma parseSimpleReply_eq_ok {r : SimpleReply} :
    parseSimpleReply s = .ok r ↔ s = encodeSimpleReply r.cookie r.error := by
  simp only [parseSimpleReply, run'_eq_ok, parse_bind_eq_ok, guard_eq_ok, readU32_eq_ok,
    readU64_eq_ok, requireNoPayload_eq_ok, parse_pure_eq_ok, encodeSimpleReply, List.append_assoc]
  constructor
  · rintro ⟨_, magic, _, rfl, same, error, _, rfl, cookie, _, rfl, _, _, ⟨rfl, rfl⟩, rfl, rfl⟩
    rw [not_not.1 same, List.append_nil]
  · rintro rfl
    refine ⟨[], _, _, rfl, not_not.2 rfl, _, _, rfl, _, [], ?_, (), [], ⟨rfl, rfl⟩, rfl, rfl⟩
    rw [List.append_nil]

end Parse

section Requests

variable {h : RequestHeader} {maxIoBytes : UInt32} {n : Nat}

def RequestHeader.Effect (h : RequestHeader) (maxIoBytes : UInt32) : Prop :=
  h.length ≠ 0 ∧ h.offset.toNat + h.length.toNat < U64 ∧ h.length ≤ maxIoBytes

def RequestHeader.NoRange (h : RequestHeader) : Prop := h.offset = 0 ∧ h.length = 0

lemma validateEffect_eq_ok {command field : String} {a : Nat} :
    (do validateNonzeroLen command h.length
        validateEffectRange h.offset h.length
        validateIoLen field h.length maxIoBytes
        pure a : Parsed Nat) = .ok n ↔ h.Effect maxIoBytes ∧ n = a := by
  simp only [validateNonzeroLen, validateEffectRange, validateIoLen, checkedAdd,
    RequestHeader.Effect]
  split_ifs <;> simp_all [bind, Except.bind, pure, Except.pure, eq_comm]

lemma validateNoRange_eq_ok {command : String} :
    (do validateNoRange command h.offset h.length
        pure 0 : Parsed Nat) = .ok n ↔ h.NoRange ∧ n = 0 := by
  unfold validateNoRange RequestHeader.NoRange
  split
  · rename_i range
    exact ⟨fun h' => (nomatch h'), fun h' => absurd h'.1 (not_and_or.2 range)⟩
  · rename_i none
    rw [not_or, not_not, not_not] at none
    simp [none, bind, Except.bind, pure, Except.pure, eq_comm]

lemma payloadLen_eq_ok : h.payloadLen maxIoBytes = .ok n ↔ h.flags = 0 ∧
    (h.command = NBD_CMD_READ ∧ h.Effect maxIoBytes ∧ n = 0 ∨
      h.command = NBD_CMD_WRITE ∧ h.Effect maxIoBytes ∧ n = h.length.toNat ∨
      h.command = NBD_CMD_FLUSH ∧ h.NoRange ∧ n = 0 ∨
      h.command = NBD_CMD_DISC ∧ h.NoRange ∧ n = 0) := by
  unfold RequestHeader.payloadLen validateCommonHeader
  by_cases flags : h.flags = 0
  · rw [if_neg (not_not.2 flags)]
    show (if _ then _ else _ : Parsed Nat) = _ ↔ _
    split_ifs with hr hw hf hd
    · rw [validateEffect_eq_ok]
      simp [flags, hr, NBD_CMD_READ, NBD_CMD_WRITE, NBD_CMD_FLUSH, NBD_CMD_DISC]
    · rw [validateEffect_eq_ok]
      simp [flags, hw, NBD_CMD_READ, NBD_CMD_WRITE, NBD_CMD_FLUSH, NBD_CMD_DISC]
    · rw [validateNoRange_eq_ok]
      simp [flags, hf, NBD_CMD_READ, NBD_CMD_WRITE, NBD_CMD_FLUSH, NBD_CMD_DISC]
    · rw [validateNoRange_eq_ok]
      simp [flags, hd, NBD_CMD_READ, NBD_CMD_WRITE, NBD_CMD_FLUSH, NBD_CMD_DISC]
    · simp [hr, hw, hf, hd]
  · simp [flags, bind, Except.bind]

lemma exists_request (valid : h.payloadLen maxIoBytes = .ok n) {payload : Buf}
    (len : payload.length = n) : ∃ r : TransmissionRequest, r.header = h ∧ r.payload = payload := by
  obtain ⟨flags, command, cookie, offset, length⟩ := h
  obtain ⟨rfl, cases⟩ := payloadLen_eq_ok.1 valid
  rcases cases with ⟨rfl, -, rfl⟩ | ⟨rfl, -, rfl⟩ | ⟨rfl, ⟨rfl, rfl⟩, rfl⟩ | ⟨rfl, ⟨rfl, rfl⟩, rfl⟩
  · exact ⟨.read cookie offset length, rfl, (List.length_eq_zero_iff.1 len).symm⟩
  · refine ⟨.write cookie offset payload, ?_, rfl⟩
    rw [TransmissionRequest.header, len, UInt32.ofNat_toNat]
  · exact ⟨.flush cookie, rfl, (List.length_eq_zero_iff.1 len).symm⟩
  · exact ⟨.disconnect cookie, rfl, (List.length_eq_zero_iff.1 len).symm⟩

lemma parseRequest_of_valid {r : TransmissionRequest}
    (valid : r.header.payloadLen maxIoBytes = .ok r.payload.length) :
    parseRequest (encodeRequestHeader r.header ++ r.payload) maxIoBytes = .ok r := by
  refine run'_eq_ok.2
    ⟨[], parse_bind_eq_ok.2 ⟨_, _, parseHeader_eq_ok.2 rfl, parse_bind_eq_ok.2 ?_⟩⟩
  refine ⟨_, _, parse_lift_eq_ok.2 ⟨valid, rfl⟩, ?_⟩
  cases r with
  | read cookie offset length => rfl
  | flush cookie => rfl
  | disconnect cookie => rfl
  | write cookie offset data =>
    refine parse_bind_eq_ok.2 ⟨data, [], readBytes_eq_ok.2 ⟨(List.append_nil _).symm, rfl⟩, ?_⟩
    rfl

lemma payloadLen_request {r : TransmissionRequest} (fits : r.payload.length < U32)
    (valid : r.header.payloadLen maxIoBytes = .ok n) : n = r.payload.length := by
  obtain ⟨-, cases⟩ := payloadLen_eq_ok.1 valid
  cases r with
  | write cookie offset data =>
    rcases cases with ⟨h, -⟩ | ⟨-, -, rfl⟩ | ⟨h, -⟩ | ⟨h, -⟩
    · cases h
    · exact UInt32.toNat_ofNat_of_lt' fits
    · cases h
    · cases h
  | read cookie offset length =>
    rcases cases with ⟨-, -, rfl⟩ | ⟨h, -⟩ | ⟨h, -⟩ | ⟨h, -⟩
    · rfl
    all_goals cases h
  | flush cookie =>
    rcases cases with ⟨h, -⟩ | ⟨h, -⟩ | ⟨-, -, rfl⟩ | ⟨h, -⟩
    all_goals first | rfl | cases h
  | disconnect cookie =>
    rcases cases with ⟨h, -⟩ | ⟨h, -⟩ | ⟨h, -⟩ | ⟨-, -, rfl⟩
    all_goals first | rfl | cases h

lemma checked_eq_ok {x : Parsed Nat} {b bytes : Buf} :
    (do let _ ← x
        pure b : Parsed Buf) = .ok bytes ↔ (∃ n, x = .ok n) ∧ bytes = b := by
  cases x with
  | error e => simp [bind, Except.bind]
  | ok n => simp [bind, Except.bind, pure, Except.pure, eq_comm]

lemma payloadLen_request_iff {r : TransmissionRequest} (fits : r.payload.length < U32) :
    (∃ n, r.header.payloadLen maxIoBytes = .ok n) ↔
      r.header.payloadLen maxIoBytes = .ok r.payload.length :=
  ⟨fun ⟨_, hn⟩ => payloadLen_request fits hn ▸ hn, fun hn => ⟨_, hn⟩⟩

lemma encode_eq_ok {r : TransmissionRequest} {bytes : Buf} : r.encode = .ok bytes ↔
    r.header.payloadLen MAX_IO_BYTES = .ok r.payload.length ∧
      bytes = encodeRequestHeader r.header ++ r.payload := by
  have plain (r : TransmissionRequest) (none : r.payload = []) :
      (do let _ ← r.header.payloadLen MAX_IO_BYTES
          pure (encodeRequestHeader r.header) : Parsed Buf) = .ok bytes ↔
        r.header.payloadLen MAX_IO_BYTES = .ok r.payload.length ∧
          bytes = encodeRequestHeader r.header ++ r.payload := by
    rw [checked_eq_ok, payloadLen_request_iff (by rw [none]; decide), none, List.append_nil]
  cases r with
  | read cookie offset length => exact plain (.read cookie offset length) rfl
  | flush cookie => exact plain (.flush cookie) rfl
  | disconnect cookie => exact plain (.disconnect cookie) rfl
  | write cookie offset data =>
    show encodeWriteRequest cookie offset data = _ ↔ _
    unfold encodeWriteRequest
    split
    · rename_i long
      refine ⟨fun h => (nomatch h), fun ⟨valid, _⟩ => ?_⟩
      have lt := (TransmissionRequest.write cookie offset data).header.length.toNat_lt
      obtain ⟨-, h | ⟨-, -, len⟩ | h | h⟩ := payloadLen_eq_ok.1 valid
      · cases h.1
      · exact absurd (len ▸ lt : data.length < U32) (not_lt.2 long)
      · cases h.1
      · cases h.1
    · rename_i short
      have fits : (TransmissionRequest.write cookie offset data).payload.length < U32 :=
        not_le.1 short
      exact checked_eq_ok.trans (and_congr (payloadLen_request_iff fits) Iff.rfl)

lemma parseEnd_eq_ok {s rest : Buf} {a r : TransmissionRequest}
    (run : (requireNoPayload >>= fun _ => pure a : WireM TransmissionRequest) s = .ok (r, rest)) :
    s = [] ∧ r = a := by
  obtain ⟨_, _, ended, run⟩ := parse_bind_eq_ok.1 run
  exact ⟨(requireNoPayload_eq_ok.1 ended).1, (parse_pure_eq_ok.1 run).1⟩

lemma parseRequestFrom_valid {payload rest : Buf} {r : TransmissionRequest}
    (valid : h.payloadLen maxIoBytes = .ok n)
    (run : parseRequestFrom maxIoBytes (encodeRequestHeader h ++ payload) = .ok (r, rest)) :
    r.header = h ∧ r.payload = payload ∧ payload.length = n := by
  obtain ⟨_, _, parsed, checked⟩ := parse_bind_eq_ok.1 run
  rw [parseHeader_eq_ok.2 rfl] at parsed
  cases parsed
  obtain ⟨_, _, lifted, run⟩ := parse_bind_eq_ok.1 checked
  obtain ⟨same, rfl⟩ := parse_lift_eq_ok.1 lifted
  rw [valid] at same
  cases same
  obtain ⟨flags, command, cookie, offset, length⟩ := h
  obtain ⟨rfl, cases⟩ := payloadLen_eq_ok.1 valid
  rcases cases with ⟨rfl, -, rfl⟩ | ⟨rfl, -, rfl⟩ | ⟨rfl, ⟨rfl, rfl⟩, rfl⟩ | ⟨rfl, ⟨rfl, rfl⟩, rfl⟩
  · obtain ⟨rfl, rfl⟩ := parseEnd_eq_ok (a := .read cookie offset length) run
    exact ⟨rfl, rfl, rfl⟩
  · have run : (readBytes length.toNat >>= fun data => requireNoPayload >>= fun _ =>
        pure (.write cookie offset data) : WireM TransmissionRequest) _ = .ok (r, rest) := run
    obtain ⟨data, unread, taken, run⟩ := parse_bind_eq_ok.1 run
    obtain ⟨rfl, rfl⟩ := parseEnd_eq_ok run
    obtain ⟨rfl, len⟩ := readBytes_eq_ok.1 taken
    rw [List.append_nil]
    refine ⟨?_, rfl, len⟩
    rw [TransmissionRequest.header, len, UInt32.ofNat_toNat]
  · obtain ⟨rfl, rfl⟩ := parseEnd_eq_ok (a := .flush cookie) run
    exact ⟨rfl, rfl, rfl⟩
  · obtain ⟨rfl, rfl⟩ := parseEnd_eq_ok (a := .disconnect cookie) run
    exact ⟨rfl, rfl, rfl⟩

/-- `parse_request` returns a request exactly from its header, if this passes `payload_len`, and its
payload. -/
lemma parseRequest_eq_ok {bytes : Buf} {r : TransmissionRequest} :
    parseRequest bytes maxIoBytes = .ok r ↔
      r.header.payloadLen maxIoBytes = .ok r.payload.length ∧
        bytes = encodeRequestHeader r.header ++ r.payload := by
  constructor
  · intro run
    obtain ⟨rest, run⟩ := run'_eq_ok.1 run
    obtain ⟨h, payload, parsed, run'⟩ := parse_bind_eq_ok.1 run
    obtain ⟨n, unread, lifted, -⟩ := parse_bind_eq_ok.1 run'
    obtain rfl := parseHeader_eq_ok.1 parsed
    obtain ⟨checked, -⟩ := parse_lift_eq_ok.1 lifted
    obtain ⟨rfl, rfl, len⟩ := parseRequestFrom_valid checked run
    exact ⟨len ▸ checked, rfl⟩
  · rintro ⟨valid, rfl⟩
    exact parseRequest_of_valid valid

/-- The parser of the server accepts exactly what the encoders of the client return: a request has
one encoding, which no other request has, and what the client refuses to encode is never parsed. -/
theorem parse_request_accepts_encoded (b : Buf) (r : TransmissionRequest) :
    (parseRequest b MAX_IO_BYTES = .ok r ↔ r.encode = .ok b) ∧
      (∀ r', r.encode = .ok b → r'.encode = .ok b → r' = r) ∧
      (∀ b', parseRequest b MAX_IO_BYTES = .ok r → parseRequest b' MAX_IO_BYTES = .ok r → b' = b) ∧
      ∀ e, r.encode = .error e → parseRequest b MAX_IO_BYTES ≠ .ok r := by
  have iff : ∀ {b : Buf} {r : TransmissionRequest},
      parseRequest b MAX_IO_BYTES = .ok r ↔ r.encode = .ok b :=
    fun {b r} => parseRequest_eq_ok.trans encode_eq_ok.symm
  refine ⟨iff, ?_, ?_, ?_⟩
  · intro r' h h'
    rw [← iff] at h h'
    rw [h] at h'
    exact (Except.ok.inj h').symm
  · intro b' h h'
    rw [iff] at h h'
    rw [h] at h'
    exact (Except.ok.inj h').symm
  · intro e refused parsed
    rw [iff, refused] at parsed
    cases parsed

-- a write of two bytes is encoded, and parsed again
example : (TransmissionRequest.write 5 512 [7, 9]).encode.toOption.bind
    (fun b => (parseRequest b MAX_IO_BYTES).toOption) = some (.write 5 512 [7, 9]) := by
  decide +kernel

end Requests

end NbdServer
