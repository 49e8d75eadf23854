import NbdServer.Protocol.Transmission

/-!
# Option requests and replies

Model of `nbd-protocol/src/option.rs`: the messages of the option phase, with the encoders of the
client and of the server and their parsers. A message is a header, which carries the length of a
payload of at most `MAX_OPTION_PAYLOAD_BYTES`, and this payload. A request or reply is parsed
exactly from what the encoder returns for its code and payload (`parseOptionRequest_eq_ok`,
`parseOptionReply_eq_ok`); what is left is how a payload is read.
-/

namespace NbdServer

open Lib Wire

/-- Rust `IHAVEOPT_MAGIC`. -/
def IHAVEOPT_MAGIC : UInt64 := 0x49484156454f5054

/-- Rust `OPTION_REPLY_MAGIC`. -/
def OPTION_REPLY_MAGIC : UInt64 := 0x0003e889045565a9

/-- Rust `NbdOptionCode`. -/
abbrev NbdOptionCode := UInt32

/-- Rust `NBD_OPT_ABORT`. -/
def NBD_OPT_ABORT : NbdOptionCode := 2

/-- Rust `NBD_OPT_GO`. -/
def NBD_OPT_GO : NbdOptionCode := 7

/-- Rust `NBD_REP_ACK`. -/
def NBD_REP_ACK : UInt32 := 1

/-- Rust `NBD_REP_INFO`. -/
def NBD_REP_INFO : UInt32 := 3

/-- Rust `NBD_REP_ERR_UNSUP`. -/
def NBD_REP_ERR_UNSUP : UInt32 := ((1 : UInt32) <<< 31) + 1

/-- Rust `NBD_REP_ERR_POLICY`. -/
def NBD_REP_ERR_POLICY : UInt32 := ((1 : UInt32) <<< 31) + 2

/-- Rust `NBD_REP_ERR_UNKNOWN`. -/
def NBD_REP_ERR_UNKNOWN : UInt32 := ((1 : UInt32) <<< 31) + 6

/-- Rust `NBD_INFO_EXPORT`. -/
def NBD_INFO_EXPORT : UInt16 := 0

/-- Rust `MAX_STRING_BYTES`. -/
def MAX_STRING_BYTES : Nat := 4096

/-- Rust `OPTION_REQUEST_HEADER_BYTES`. -/
def OPTION_REQUEST_HEADER_BYTES : Nat := 16

/-- Rust `OPTION_REPLY_HEADER_BYTES`. -/
def OPTION_REPLY_HEADER_BYTES : Nat := 20

/-- Rust `MAX_OPTION_PAYLOAD_BYTES`. -/
def MAX_OPTION_PAYLOAD_BYTES : UInt32 := 64 * 1024

/-- Rust `GoRequest`. -/
structure GoRequest where
  exportName : String
  infoRequests : List UInt16

/-- Rust `OptionRequest`. -/
inductive OptionRequest where
  | go (request : GoRequest)
  | abort (payload : Buf)
  | unknown (code : NbdOptionCode) (payload : Buf)

/-- Rust `OptionRequestHeader`. -/
structure OptionRequestHeader where
  option : NbdOptionCode
  payloadLen : UInt32

/-- Rust `OptionReplyHeader`. -/
structure OptionReplyHeader where
  option : NbdOptionCode
  replyType : UInt32
  payloadLen : UInt32

/-- Rust `OptionReply`. -/
inductive OptionReply where
  | infoExport (option : NbdOptionCode) (exportSizeBytes : UInt64) (transmissionFlags : UInt16)
  | ack (option : NbdOptionCode)
  | error (option : NbdOptionCode) (replyType : UInt32) (message : Buf)
  | other (option : NbdOptionCode) (replyType : UInt32) (payload : Buf)

/-- Rust `str::as_bytes`. -/
def asBytes (s : String) : Buf := s.toByteArray.data.toList

/-- Rust `str::from_utf8`. -/
def fromUtf8 (bytes : Buf) : Option String := String.fromUTF8? ⟨bytes.toArray⟩

lemma fromUtf8_eq_some {bytes : Buf} {s : String} : fromUtf8 bytes = some s ↔
    bytes = asBytes s := by
  unfold fromUtf8 String.fromUTF8? asBytes
  constructor
  · intro h
    split at h
    · cases h
      rfl
    · cases h
  · rintro rfl
    exact dif_pos s.isValidUTF8

/-- Rust `bounded_payload_len`. -/
def boundedPayloadLen (field : String) (payloadLen : UInt32) : Parsed Nat :=
  if payloadLen > MAX_OPTION_PAYLOAD_BYTES then
    .error (.lengthTooLarge field payloadLen.toNat MAX_OPTION_PAYLOAD_BYTES.toNat)
  else .ok payloadLen.toNat

/-! ## Requests -/

/-- Rust `encode_option_request`. -/
def encodeOptionRequest (option : NbdOptionCode) (payload : Buf) : Parsed Buf := do
  if U32 ≤ payload.length then
    throw (.lengthTooLarge "option request payload" payload.length (U32 - 1))
  let payloadLen := UInt32.ofNat payload.length
  let _ ← boundedPayloadLen "option request payload" payloadLen
  pure (writeU64 IHAVEOPT_MAGIC ++ writeU32 option ++ writeU32 payloadLen ++ payload)

/-- The payload that `encode_go_request` builds. -/
def goPayload (exportName : String) (infoRequests : List UInt16) : Buf :=
  writeU32 (.ofNat (asBytes exportName).length) ++ asBytes exportName ++
    writeU16 (.ofNat infoRequests.length) ++ infoRequests.flatMap writeU16

/-- Rust `encode_go_request`. -/
def encodeGoRequest (exportName : String) (infoRequests : List UInt16) : Parsed Buf :=
  if (asBytes exportName).length > MAX_STRING_BYTES then
    .error (.lengthTooLarge "export name" (asBytes exportName).length MAX_STRING_BYTES)
  else if 0 ∈ asBytes exportName then
    .error (.invalidString "export name" "contains NUL byte")
  else if 2 ^ 16 ≤ infoRequests.length then
    .error (.lengthTooLarge "info request count" infoRequests.length (2 ^ 16 - 1))
  else encodeOptionRequest NBD_OPT_GO (goPayload exportName infoRequests)

/-- Rust `encode_abort_request`. -/
def encodeAbortRequest (payload : Buf) : Parsed Buf := encodeOptionRequest NBD_OPT_ABORT payload

/-- Rust `parse_option_request_header`. -/
def parseOptionRequestHeader (input : Buf) : Parsed OptionRequestHeader :=
  StateT.run' (do
    let magic ← readU64
    if magic ≠ IHAVEOPT_MAGIC then
      throw (.invalidMagic "option request" IHAVEOPT_MAGIC.toNat magic.toNat)
    let option ← readU32
    let payloadLen ← readU32
    requireNoPayload
    pure ⟨option, payloadLen⟩) input

/-- The loop of `parse_go_payload` over the info requests. -/
def readInfoRequests : Nat → WireM (List UInt16)
  | 0 => pure []
  | count + 1 => do
    let info ← readU16
    let infos ← readInfoRequests count
    pure (info :: infos)

/-- The export name of `parse_go_payload`. -/
def parseExportName (name : Buf) : Parsed String :=
  match fromUtf8 name with
  | some exportName => .ok exportName
  | none => .error (.invalidUtf8 "export name")

/-- Rust `parse_go_payload`. -/
def parseGoPayload (payload : Buf) : Parsed GoRequest :=
  StateT.run' (do
    let nameLen ← readU32
    if nameLen.toNat > MAX_STRING_BYTES then
      throw (.lengthTooLarge "export name" nameLen.toNat MAX_STRING_BYTES)
    let name ← readBytes nameLen.toNat
    if 0 ∈ name then
      throw (.invalidString "export name" "contains NUL byte")
    let exportName ← parseExportName name
    let infoCount ← readU16
    let infoRequests ← readInfoRequests infoCount.toNat
    requireNoPayload
    pure ⟨exportName, infoRequests⟩) payload

/-- The end of `parse_option_request`, which looks at the option code. -/
def optionRequestOf (code : NbdOptionCode) (payload : Buf) : Parsed OptionRequest :=
  if code = NBD_OPT_GO then do
    let request ← parseGoPayload payload
    pure (.go request)
  else if code = NBD_OPT_ABORT then pure (.abort payload)
  else pure (.unknown code payload)

/-- Rust `parse_option_request`. -/
def parseOptionRequest (input : Buf) : Parsed OptionRequest :=
  StateT.run' (do
    let bytes ← readBytes OPTION_REQUEST_HEADER_BYTES
    let header ← parseOptionRequestHeader bytes
    let len ← boundedPayloadLen "option request payload" header.payloadLen
    let payload ← readBytes len
    requireNoPayload
    optionRequestOf header.option payload : WireM OptionRequest) input

/-! ## Replies -/

/-- Rust `encode_option_reply`. -/
def encodeOptionReply (option : NbdOptionCode) (replyType : UInt32) (payload : Buf) :
    Parsed Buf := do
  if U32 ≤ payload.length then
    throw (.lengthTooLarge "option reply payload" payload.length (U32 - 1))
  let payloadLen := UInt32.ofNat payload.length
  let _ ← boundedPayloadLen "option reply payload" payloadLen
  pure (writeU64 OPTION_REPLY_MAGIC ++ writeU32 option ++ writeU32 replyType ++
    writeU32 payloadLen ++ payload)

/-- The payload that `encode_export_info_reply` builds. -/
def exportInfoPayload (exportSizeBytes : UInt64) (transmissionFlags : UInt16) : Buf :=
  writeU16 NBD_INFO_EXPORT ++ writeU64 exportSizeBytes ++ writeU16 transmissionFlags

/-- Rust `encode_export_info_reply`. -/
def encodeExportInfoReply (option : NbdOptionCode) (exportSizeBytes : UInt64)
    (transmissionFlags : UInt16) : Parsed Buf :=
  encodeOptionReply option NBD_REP_INFO (exportInfoPayload exportSizeBytes transmissionFlags)

/-- Rust `encode_ack_reply`. -/
def encodeAckReply (option : NbdOptionCode) : Parsed Buf := encodeOptionReply option NBD_REP_ACK []

/-- Rust `encode_unsupported_option_reply`. -/
def encodeUnsupportedOptionReply (option : NbdOptionCode) (message : Buf) : Parsed Buf :=
  encodeOptionReply option NBD_REP_ERR_UNSUP message

/-- Rust `encode_policy_option_reply`. -/
def encodePolicyOptionReply (option : NbdOptionCode) (message : Buf) : Parsed Buf :=
  encodeOptionReply option NBD_REP_ERR_POLICY message

/-- Rust `encode_unknown_export_reply`. -/
def encodeUnknownExportReply (option : NbdOptionCode) (message : Buf) : Parsed Buf :=
  encodeOptionReply option NBD_REP_ERR_UNKNOWN message

/-- Rust `parse_option_reply_header`. -/
def parseOptionReplyHeader (input : Buf) : Parsed OptionReplyHeader :=
  StateT.run' (do
    let magic ← readU64
    if magic ≠ OPTION_REPLY_MAGIC then
      throw (.invalidMagic "option reply" OPTION_REPLY_MAGIC.toNat magic.toNat)
    let option ← readU32
    let replyType ← readU32
    let payloadLen ← readU32
    requireNoPayload
    pure ⟨option, replyType, payloadLen⟩) input

/-- Rust `parse_info_reply`. -/
def parseInfoReply (option : NbdOptionCode) (payload : Buf) : Parsed OptionReply :=
  StateT.run' (do
    let infoType ← readU16
    if infoType = NBD_INFO_EXPORT then
      let exportSizeBytes ← readU64
      let transmissionFlags ← readU16
      requireNoPayload
      pure (.infoExport option exportSizeBytes transmissionFlags)
    else pure (.other option NBD_REP_INFO payload)) payload

/-- Rust `is_error_reply`. -/
def isErrorReply (replyType : UInt32) : Bool := replyType &&& ((1 : UInt32) <<< 31) ≠ 0

/-- The end of `parse_option_reply`, which looks at the reply type. -/
def optionReplyOf (option : NbdOptionCode) (replyType : UInt32) (payload : Buf) :
    Parsed OptionReply :=
  if replyType = NBD_REP_INFO then parseInfoReply option payload
  else if replyType = NBD_REP_ACK then
    if payload ≠ [] then .error (.invalidReply "NBD_REP_ACK" "payload must be empty")
    else .ok (.ack option)
  else if isErrorReply replyType then .ok (.error option replyType payload)
  else .ok (.other option replyType payload)

/-- Rust `parse_option_reply`. -/
def parseOptionReply (input : Buf) : Parsed OptionReply :=
  StateT.run' (do
    let bytes ← readBytes OPTION_REPLY_HEADER_BYTES
    let header ← parseOptionReplyHeader bytes
    let len ← boundedPayloadLen "option reply payload" header.payloadLen
    let payload ← readBytes len
    requireNoPayload
    optionReplyOf header.option header.replyType payload : WireM OptionReply) input

namespace OptionReply

/-- Rust `OptionReply::option`. -/
def option : OptionReply → NbdOptionCode
  | infoExport option _ _ | ack option | error option _ _ | other option _ _ => option

def replyType : OptionReply → UInt32
  | infoExport _ _ _ => NBD_REP_INFO
  | ack _ => NBD_REP_ACK
  | error _ replyType _ | other _ replyType _ => replyType

def payload : OptionReply → Buf
  | infoExport _ size flags => exportInfoPayload size flags
  | ack _ => []
  | error _ _ message => message
  | other _ _ payload => payload

end OptionReply

/-! ## Headers and payloads -/

section Frames

variable {payload bytes : Buf}

lemma boundedPayloadLen_ofNat {field : String} {n m : Nat} (fits : n < U32) :
    boundedPayloadLen field (.ofNat n) = .ok m ↔ n ≤ MAX_OPTION_PAYLOAD_BYTES.toNat ∧ m = n := by
  have same : (UInt32.ofNat n).toNat = n := UInt32.toNat_ofNat_of_lt' fits
  unfold boundedPayloadLen
  split
  · rename_i long
    have : MAX_OPTION_PAYLOAD_BYTES.toNat < n := same ▸ UInt32.lt_iff_toNat_lt.1 long
    refine ⟨fun h => (nomatch h), fun h => ?_⟩
    omega
  · rename_i short
    have : n ≤ MAX_OPTION_PAYLOAD_BYTES.toNat :=
      same ▸ UInt32.le_iff_toNat_le.1 (UInt32.not_lt.1 short)
    rw [same, Except.ok.injEq]
    exact ⟨fun h => ⟨this, h.symm⟩, fun h => h.2.symm⟩

lemma encodeFrame_eq_ok {field : String} {frame : Buf} :
    (do if U32 ≤ payload.length then
          throw (.lengthTooLarge field payload.length (U32 - 1))
        let _ ← boundedPayloadLen field (.ofNat payload.length)
        pure frame : Parsed Buf) = .ok bytes ↔
      payload.length ≤ MAX_OPTION_PAYLOAD_BYTES.toNat ∧ bytes = frame := by
  have bound : MAX_OPTION_PAYLOAD_BYTES.toNat < U32 := by decide
  split
  · rename_i long
    refine ⟨fun h => (nomatch h), fun h => ?_⟩
    omega
  · rename_i short
    refine checked_eq_ok.trans (and_congr_left fun _ => ?_)
    simp only [boundedPayloadLen_ofNat (not_le.1 short), exists_eq_right]

lemma boundedPayloadLen_eq_ok {field : String} {len : UInt32} :
    boundedPayloadLen field len = .ok payload.length ↔
      payload.length ≤ MAX_OPTION_PAYLOAD_BYTES.toNat ∧ len = .ofNat payload.length := by
  have bound : MAX_OPTION_PAYLOAD_BYTES.toNat < U32 := by decide
  have back : boundedPayloadLen field (.ofNat len.toNat) = .ok payload.length ↔ _ :=
    boundedPayloadLen_ofNat len.toNat_lt
  rw [UInt32.ofNat_toNat] at back
  rw [back]
  constructor
  · rintro ⟨le, eq⟩
    exact ⟨eq ▸ le, by rw [eq, UInt32.ofNat_toNat]⟩
  · rintro ⟨le, rfl⟩
    rw [UInt32.toNat_ofNat_of_lt' (le.trans_lt bound)]
    exact ⟨le, rfl⟩

lemma encodeOptionRequest_eq_ok {option : NbdOptionCode} :
    encodeOptionRequest option payload = .ok bytes ↔
      payload.length ≤ MAX_OPTION_PAYLOAD_BYTES.toNat ∧
        bytes = writeU64 IHAVEOPT_MAGIC ++ writeU32 option ++ writeU32 (.ofNat payload.length) ++
        payload :=
  encodeFrame_eq_ok

lemma encodeOptionReply_eq_ok {option : NbdOptionCode} {replyType : UInt32} :
    encodeOptionReply option replyType payload = .ok bytes ↔
      payload.length ≤ MAX_OPTION_PAYLOAD_BYTES.toNat ∧
        bytes = writeU64 OPTION_REPLY_MAGIC ++ writeU32 option ++ writeU32 replyType ++
          writeU32 (.ofNat payload.length) ++ payload :=
  encodeFrame_eq_ok

lemma parseOptionRequestHeader_eq_ok {h : OptionRequestHeader} :
    parseOptionRequestHeader bytes = .ok h ↔
      bytes = writeU64 IHAVEOPT_MAGIC ++ writeU32 h.option ++ writeU32 h.payloadLen := by
  simp only [parseOptionRequestHeader, run'_eq_ok, parse_bind_eq_ok, guard_eq_ok, readU32_eq_ok,
    readU64_eq_ok, requireNoPayload_eq_ok, parse_pure_eq_ok, List.append_assoc]
  constructor
  · rintro ⟨_, magic, _, rfl, same, option, _, rfl, len, _, rfl, _, _, ⟨rfl, rfl⟩, rfl, rfl⟩
    rw [not_not.1 same, List.append_nil]
  · rintro rfl
    refine ⟨[], _, _, rfl, not_not.2 rfl, _, _, rfl, _, [], ?_, (), [], ⟨rfl, rfl⟩, rfl, rfl⟩
    rw [List.append_nil]

lemma parseOptionReplyHeader_eq_ok {h : OptionReplyHeader} :
    parseOptionReplyHeader bytes = .ok h ↔
      bytes = writeU64 OPTION_REPLY_MAGIC ++ writeU32 h.option ++ writeU32 h.replyType ++
        writeU32 h.payloadLen := by
  simp only [parseOptionReplyHeader, run'_eq_ok, parse_bind_eq_ok, guard_eq_ok, readU32_eq_ok,
    readU64_eq_ok, requireNoPayload_eq_ok, parse_pure_eq_ok, List.append_assoc]
  constructor
  · rintro ⟨_, magic, _, rfl, same, option, _, rfl, type, _, rfl, len, _, rfl, _, _, ⟨rfl, rfl⟩,
      rfl, rfl⟩
    rw [not_not.1 same, List.append_nil]
  · rintro rfl
    refine ⟨[], _, _, rfl, not_not.2 rfl, _, _, rfl, _, _, rfl, _, [], ?_, (), [], ⟨rfl, rfl⟩, rfl,
      rfl⟩
    rw [List.append_nil]

lemma parsePayload_eq_ok {α : Type} {field : String} {len : UInt32} {f : Buf → Parsed α} {s : Buf}
    {a : α} :
    (∃ rest, (do let len ← boundedPayloadLen field len
                 let payload ← readBytes len
                 requireNoPayload
                 f payload : WireM α) s = .ok (a, rest)) ↔
      s.length ≤ MAX_OPTION_PAYLOAD_BYTES.toNat ∧ len = .ofNat s.length ∧ f s = .ok a := by
  simp only [parse_bind_eq_ok, parse_lift_eq_ok, readBytes_eq_ok, requireNoPayload_eq_ok]
  constructor
  · rintro ⟨rest, n, _, ⟨bounded, rfl⟩, payload, _, ⟨rfl, rfl⟩, _, _, ⟨rfl, rfl⟩, run, -⟩
    rw [List.append_nil]
    obtain ⟨le, eq⟩ := boundedPayloadLen_eq_ok.1 bounded
    exact ⟨le, eq, run⟩
  · rintro ⟨le, eq, run⟩
    exact ⟨[], _, s, ⟨boundedPayloadLen_eq_ok.2 ⟨le, eq⟩, rfl⟩, s, [],
      ⟨(List.append_nil s).symm, rfl⟩, (), [], ⟨rfl, rfl⟩, run, rfl⟩

lemma parseOptionRequest_eq_ok {r : OptionRequest} :
    parseOptionRequest bytes = .ok r ↔
      ∃ code payload, encodeOptionRequest code payload = .ok bytes ∧
        optionRequestOf code payload = .ok r := by
  simp only [parseOptionRequest, run'_eq_ok]
  constructor
  · rintro ⟨rest, run⟩
    obtain ⟨head, _, taken, afterHead⟩ := parse_bind_eq_ok.1 run
    obtain ⟨header, payload, lifted, afterHeader⟩ := parse_bind_eq_ok.1 afterHead
    obtain ⟨parsed, rfl⟩ := parse_lift_eq_ok.1 lifted
    obtain ⟨rfl, -⟩ := readBytes_eq_ok.1 taken
    obtain ⟨le, eq, last⟩ := parsePayload_eq_ok.1 ⟨rest, afterHeader⟩
    refine ⟨header.option, _, encodeOptionRequest_eq_ok.2 ⟨le, ?_⟩, last⟩
    rw [parseOptionRequestHeader_eq_ok.1 parsed, eq]
  · rintro ⟨code, payload, encoded, last⟩
    obtain ⟨le, rfl⟩ := encodeOptionRequest_eq_ok.1 encoded
    obtain ⟨rest, run⟩ := parsePayload_eq_ok.2 ⟨le, rfl, last⟩
    refine ⟨rest, parse_bind_eq_ok.2 ⟨_, payload, readBytes_eq_ok.2 ⟨rfl, ?_⟩, parse_bind_eq_ok.2
      ⟨⟨code, .ofNat payload.length⟩, payload, parse_lift_eq_ok.2 ⟨?_, rfl⟩, run⟩⟩⟩
    · simp [OPTION_REQUEST_HEADER_BYTES]
    · exact parseOptionRequestHeader_eq_ok.2 rfl

lemma parseOptionReply_eq_ok {r : OptionReply} :
    parseOptionReply bytes = .ok r ↔
      ∃ option replyType payload, encodeOptionReply option replyType payload = .ok bytes ∧
        optionReplyOf option replyType payload = .ok r := by
  simp only [parseOptionReply, run'_eq_ok]
  constructor
  · rintro ⟨rest, run⟩
    obtain ⟨head, _, taken, afterHead⟩ := parse_bind_eq_ok.1 run
    obtain ⟨header, payload, lifted, afterHeader⟩ := parse_bind_eq_ok.1 afterHead
    obtain ⟨parsed, rfl⟩ := parse_lift_eq_ok.1 lifted
    obtain ⟨rfl, -⟩ := readBytes_eq_ok.1 taken
    obtain ⟨le, eq, last⟩ := parsePayload_eq_ok.1 ⟨rest, afterHeader⟩
    refine ⟨header.option, header.replyType, _, encodeOptionReply_eq_ok.2 ⟨le, ?_⟩, last⟩
    rw [parseOptionReplyHeader_eq_ok.1 parsed, eq]
  · rintro ⟨option, replyType, payload, encoded, last⟩
    obtain ⟨le, rfl⟩ := encodeOptionReply_eq_ok.1 encoded
    obtain ⟨rest, run⟩ := parsePayload_eq_ok.2 ⟨le, rfl, last⟩
    refine ⟨rest, parse_bind_eq_ok.2 ⟨_, payload, readBytes_eq_ok.2 ⟨rfl, ?_⟩, parse_bind_eq_ok.2
      ⟨⟨option, replyType, .ofNat payload.length⟩, payload, parse_lift_eq_ok.2 ⟨?_, rfl⟩, run⟩⟩⟩
    · simp [OPTION_REPLY_HEADER_BYTES]
    · exact parseOptionReplyHeader_eq_ok.2 rfl

end Frames

/-! ## Payloads -/

section Payloads

variable {payload bytes : Buf}

lemma readInfoRequests_eq_ok {count : Nat} {s rest : Buf} {infos : List UInt16} :
    readInfoRequests count s = .ok (infos, rest) ↔
      infos.length = count ∧ s = infos.flatMap writeU16 ++ rest := by
  induction count generalizing s rest infos with
  | zero =>
    rw [readInfoRequests, parse_pure_eq_ok, List.length_eq_zero_iff]
    refine and_congr_right ?_
    rintro rfl
    exact eq_comm
  | succ count ih =>
    simp only [readInfoRequests, parse_bind_eq_ok, readU16_eq_ok, parse_pure_eq_ok, ih]
    constructor
    · rintro ⟨info, _, rfl, tail, _, ⟨rfl, rfl⟩, rfl, rfl⟩
      exact ⟨rfl, by rw [List.flatMap_cons, List.append_assoc]⟩
    · rintro ⟨len, rfl⟩
      cases infos with
      | nil => cases len
      | cons info infos =>
        refine ⟨info, _, ?_, infos, _, ⟨Nat.succ.inj len, rfl⟩, rfl, rfl⟩
        rw [List.flatMap_cons, List.append_assoc]

lemma parseExportName_eq_ok {name : Buf} {exportName : String} :
    parseExportName name = .ok exportName ↔ name = asBytes exportName := by
  rw [← fromUtf8_eq_some]
  unfold parseExportName
  cases fromUtf8 name with
  | none => exact ⟨fun h => (nomatch h), fun h => (nomatch h)⟩
  | some s => rw [Except.ok.injEq, Option.some.injEq]

lemma parseGoPayload_eq_ok {exportName : String} {infoRequests : List UInt16} :
    parseGoPayload payload = .ok ⟨exportName, infoRequests⟩ ↔
      (asBytes exportName).length ≤ MAX_STRING_BYTES ∧ 0 ∉ asBytes exportName ∧
        infoRequests.length < 2 ^ 16 ∧ payload = goPayload exportName infoRequests := by
  have bound : MAX_STRING_BYTES < 2 ^ 32 := by decide
  simp only [parseGoPayload, run'_eq_ok, parse_bind_eq_ok, guard_eq_ok, parse_lift_eq_ok,
    readU16_eq_ok, readU32_eq_ok, readBytes_eq_ok, readInfoRequests_eq_ok, requireNoPayload_eq_ok,
      parse_pure_eq_ok,
    parseExportName_eq_ok, goPayload, List.append_assoc, not_lt, gt_iff_lt]
  constructor
  · rintro ⟨_, nameLen, _, rfl, short, name, _, ⟨rfl, len⟩, clean, s, _, ⟨rfl, rfl⟩, count, _, rfl,
      infos, _, ⟨total, rfl⟩, _, _, ⟨rfl, rfl⟩, same, rfl⟩
    cases same
    refine ⟨len ▸ short, clean, total ▸ count.toNat_lt, ?_⟩
    rw [len, total, UInt32.ofNat_toNat, UInt16.ofNat_toNat, List.append_nil]
  · rintro ⟨short, clean, few, rfl⟩
    have len : (UInt32.ofNat (asBytes exportName).length).toNat = (asBytes exportName).length :=
      UInt32.toNat_ofNat_of_lt' (short.trans_lt bound)
    have total : (UInt16.ofNat infoRequests.length).toNat = infoRequests.length :=
      UInt16.toNat_ofNat_of_lt' few
    refine ⟨[], _, _, rfl, len.trans_le short, _, _, ⟨rfl, len.symm⟩, clean, _, _, ⟨rfl, rfl⟩, _, _,
      rfl, _, [], ⟨total.symm, ?_⟩, (), [], ⟨rfl, rfl⟩, rfl, rfl⟩
    rw [List.append_nil]

lemma encodeGoRequest_eq_ok {exportName : String} {infoRequests : List UInt16} :
    encodeGoRequest exportName infoRequests = .ok bytes ↔
      ((asBytes exportName).length ≤ MAX_STRING_BYTES ∧ 0 ∉ asBytes exportName ∧
        infoRequests.length < 2 ^ 16) ∧
      encodeOptionRequest NBD_OPT_GO (goPayload exportName infoRequests) = .ok bytes := by
  unfold encodeGoRequest
  split_ifs with long nul many
  · exact ⟨fun h => (nomatch h), fun h => absurd h.1.1 (not_le.2 long)⟩
  · exact ⟨fun h => (nomatch h), fun h => absurd nul h.1.2.1⟩
  · exact ⟨fun h => (nomatch h), fun h => absurd h.1.2.2 (not_lt.2 many)⟩
  · exact ⟨fun h => ⟨⟨not_lt.1 long, nul, not_le.1 many⟩, h⟩, fun h => h.2⟩

lemma optionRequestOf_eq_ok {code : NbdOptionCode} {r : OptionRequest} :
    optionRequestOf code payload = .ok r ↔
      code = NBD_OPT_GO ∧ (∃ go, parseGoPayload payload = .ok go ∧ r = .go go) ∨
      code = NBD_OPT_ABORT ∧ r = .abort payload ∨
      code ≠ NBD_OPT_GO ∧ code ≠ NBD_OPT_ABORT ∧ r = .unknown code payload := by
  unfold optionRequestOf
  split_ifs with go abort
  · cases parsed : parseGoPayload payload with
    | error e => simp [go, bind, Except.bind, NBD_OPT_GO, NBD_OPT_ABORT]
    | ok request =>
      simp [go, bind, Except.bind, pure, Except.pure, eq_comm, NBD_OPT_GO, NBD_OPT_ABORT]
  · simp [abort, pure, Except.pure, eq_comm, NBD_OPT_GO, NBD_OPT_ABORT]
  · simp [go, abort, pure, Except.pure, eq_comm]

lemma parseInfoReply_eq_ok {option : NbdOptionCode} {r : OptionReply}
    (h : parseInfoReply option payload = .ok r) :
    r.option = option ∧ r.replyType = NBD_REP_INFO ∧ r.payload = payload := by
  obtain ⟨rest, run⟩ := run'_eq_ok.1 h
  obtain ⟨infoType, unread, taken, run⟩ := parse_bind_eq_ok.1 run
  by_cases info : infoType = NBD_INFO_EXPORT
  · rw [if_pos info] at run
    simp only [parse_bind_eq_ok, readU16_eq_ok, readU64_eq_ok, requireNoPayload_eq_ok,
      parse_pure_eq_ok] at run
    obtain ⟨size, _, rfl, flags, _, rfl, _, _, ⟨rfl, rfl⟩, rfl, rfl⟩ := run
    refine ⟨rfl, rfl, ?_⟩
    rw [readU16_eq_ok.1 taken, info]
    simp [OptionReply.payload, exportInfoPayload]
  · rw [if_neg info] at run
    obtain ⟨rfl, -⟩ := parse_pure_eq_ok.1 run
    exact ⟨rfl, rfl, rfl⟩

lemma optionReplyOf_eq_ok {option : NbdOptionCode} {replyType : UInt32} {r : OptionReply}
    (h : optionReplyOf option replyType payload = .ok r) :
    r.option = option ∧ r.replyType = replyType ∧ r.payload = payload := by
  unfold optionReplyOf at h
  split_ifs at h with info ack nonempty error
  · rw [info]
    exact parseInfoReply_eq_ok h
  · cases h
    exact ⟨rfl, ack.symm, (not_not.1 nonempty).symm⟩
  · cases h
    exact ⟨rfl, rfl, rfl⟩
  · cases h
    exact ⟨rfl, rfl, rfl⟩

lemma parseInfoReply_exportInfo (option : NbdOptionCode) (size : UInt64) (flags : UInt16) :
    parseInfoReply option (exportInfoPayload size flags) = .ok (.infoExport option size flags) := by
  refine run'_eq_ok.2 ⟨[], parse_bind_eq_ok.2 ⟨NBD_INFO_EXPORT, writeU64 size ++ writeU16 flags,
    readU16_eq_ok.2 ?_, ?_⟩⟩
  · simp [exportInfoPayload]
  · rw [if_pos rfl]
    refine parse_bind_eq_ok.2 ⟨size, writeU16 flags, readU64_eq_ok.2 rfl,
      parse_bind_eq_ok.2 ⟨flags, [], readU16_eq_ok.2 (List.append_nil _).symm,
        parse_bind_eq_ok.2 ⟨(), [], ?_, ?_⟩⟩⟩
    · exact requireNoPayload_eq_ok.2 ⟨rfl, rfl⟩
    · exact parse_pure_eq_ok.2 ⟨rfl, rfl⟩

end Payloads

/-- The option phase is coded exactly. A request is parsed from exactly the bytes its encoder
returns; a reply that is parsed is encoded to the bytes it comes from, and every reply of the server
is parsed to the option, type, size, flags and message it was built from. -/
theorem option_codec_exact (b : Buf) :
    (∀ name infos, parseOptionRequest b = .ok (.go ⟨name, infos⟩) ↔ encodeGoRequest name infos =
    .ok b) ∧
    (∀ payload, parseOptionRequest b = .ok (.abort payload) ↔ encodeAbortRequest payload = .ok b) ∧
    (∀ code payload, parseOptionRequest b = .ok (.unknown code payload) ↔
      code ≠ NBD_OPT_GO ∧ code ≠ NBD_OPT_ABORT ∧ encodeOptionRequest code payload = .ok b) ∧
    (∀ r, parseOptionReply b = .ok r → encodeOptionReply r.option r.replyType r.payload = .ok b) ∧
    (∀ option size flags, encodeExportInfoReply option size flags = .ok b →
      parseOptionReply b = .ok (.infoExport option size flags)) ∧
    (∀ option, encodeAckReply option = .ok b → parseOptionReply b = .ok (.ack option)) ∧
    (∀ option message, encodeUnsupportedOptionReply option message = .ok b →
      parseOptionReply b = .ok (.error option NBD_REP_ERR_UNSUP message)) ∧
    (∀ option message, encodePolicyOptionReply option message = .ok b →
      parseOptionReply b = .ok (.error option NBD_REP_ERR_POLICY message)) ∧
    ∀ option message, encodeUnknownExportReply option message = .ok b →
      parseOptionReply b = .ok (.error option NBD_REP_ERR_UNKNOWN message) := by
  refine ⟨?_, ?_, ?_, ?_, ?_, ?_, ?_, ?_, ?_⟩
  · intro name infos
    simp only [parseOptionRequest_eq_ok, optionRequestOf_eq_ok, encodeGoRequest_eq_ok]
    constructor
    · rintro ⟨code, payload, encoded, ⟨rfl, go, parsed, eq⟩ | ⟨-, eq⟩ | ⟨-, -, eq⟩⟩
      · cases eq
        obtain ⟨short, clean, few, rfl⟩ := parseGoPayload_eq_ok.1 parsed
        exact ⟨⟨short, clean, few⟩, encoded⟩
      · cases eq
      · cases eq
    · rintro ⟨⟨short, clean, few⟩, encoded⟩
      exact ⟨_, _, encoded, .inl ⟨rfl, _, parseGoPayload_eq_ok.2 ⟨short, clean, few, rfl⟩, rfl⟩⟩
  · intro payload
    simp only [parseOptionRequest_eq_ok, optionRequestOf_eq_ok]
    constructor
    · rintro ⟨code, payload', encoded, ⟨-, go, -, eq⟩ | ⟨rfl, eq⟩ | ⟨-, -, eq⟩⟩
      · cases eq
      · cases eq
        exact encoded
      · cases eq
    · intro encoded
      exact ⟨_, _, encoded, .inr (.inl ⟨rfl, rfl⟩)⟩
  · intro code payload
    simp only [parseOptionRequest_eq_ok, optionRequestOf_eq_ok]
    constructor
    · rintro ⟨code', payload', encoded, ⟨-, go, -, eq⟩ | ⟨-, eq⟩ | ⟨notGo, notAbort, eq⟩⟩
      · cases eq
      · cases eq
      · cases eq
        exact ⟨notGo, notAbort, encoded⟩
    · rintro ⟨notGo, notAbort, encoded⟩
      exact ⟨_, _, encoded, .inr (.inr ⟨notGo, notAbort, rfl⟩)⟩
  · intro r parsed
    obtain ⟨option, replyType, payload, encoded, last⟩ := parseOptionReply_eq_ok.1 parsed
    obtain ⟨rfl, rfl, rfl⟩ := optionReplyOf_eq_ok last
    exact encoded
  · intro option size flags encoded
    exact parseOptionReply_eq_ok.2 ⟨_, _, _, encoded, parseInfoReply_exportInfo option size flags⟩
  · intro option encoded
    exact parseOptionReply_eq_ok.2 ⟨_, _, _, encoded, rfl⟩
  · intro option message encoded
    exact parseOptionReply_eq_ok.2 ⟨_, _, _, encoded, rfl⟩
  · intro option message encoded
    exact parseOptionReply_eq_ok.2 ⟨_, _, _, encoded, rfl⟩
  · intro option message encoded
    exact parseOptionReply_eq_ok.2 ⟨_, _, _, encoded, rfl⟩

-- a request for the export `a` and the replies to it are encoded
example : (encodeGoRequest "a" [0]).toOption.map List.length = some 25 ∧
    (encodeExportInfoReply NBD_OPT_GO 8 1).toOption.map List.length = some 32 ∧
    (encodeAckReply NBD_OPT_GO).toOption.map List.length = some 20 ∧
    (encodeUnknownExportReply NBD_OPT_GO [97]).toOption.map List.length = some 21 := by
  decide +kernel

end NbdServer
