import NbdServer.Connection.Model

/-!
# The client's view of the replies

A client that has several requests under way splits the bytes it receives by their cookies: it reads
a simple reply, looks its cookie up among the headers it has sent, and takes the data of a
successful read behind it. A concatenation of frames that answer distinct requests is split into
those answers (`clientReplies_frames`).
-/

namespace NbdServer

open Lib

structure ClientReply where
  header : RequestHeader
  error : UInt32
  data : Buf
  deriving DecidableEq

/-- How many data bytes follow a simple reply to the header. -/
def RequestHeader.dataLen (h : RequestHeader) (error : UInt32) : Nat :=
  if error = 0 ∧ h.command = NBD_CMD_READ then h.length.toNat else 0

def ClientReply.frame (a : ClientReply) : Buf := encodeSimpleReply a.header.cookie a.error ++ a.data

/-- Split at most `fuel` replies to the outstanding headers off the bytes. -/
def splitReplies : Nat → List RequestHeader → Buf → Option (List ClientReply)
  | 0, _, bytes => if bytes = [] then some [] else none
  | fuel + 1, outstanding, bytes =>
    if bytes = [] then some []
    else do
      let reply ← (parseSimpleReply (bytes.take SIMPLE_REPLY_BYTES)).toOption
      let header ← outstanding.find? (·.cookie = reply.cookie)
      let rest := bytes.drop SIMPLE_REPLY_BYTES
      let n := header.dataLen reply.error
      if rest.length < n then none
      else do
        let replies ← splitReplies fuel (outstanding.erase header) (rest.drop n)
        some (⟨header, reply.error, rest.take n⟩ :: replies)

/-- The replies in the bytes that a client has received. -/
def clientReplies (outstanding : List RequestHeader) (bytes : Buf) : Option (List ClientReply) :=
  splitReplies outstanding.length outstanding bytes

lemma find?_cookie {outstanding : List RequestHeader}
    (distinct : (outstanding.map (·.cookie)).Nodup) {h : RequestHeader} (mem : h ∈ outstanding) :
    outstanding.find? (·.cookie = h.cookie) = some h := by
  obtain ⟨h', found⟩ : ∃ h', outstanding.find? (·.cookie = h.cookie) = some h' :=
    Option.isSome_iff_exists.1 (List.find?_isSome.2 ⟨h, mem, by simp⟩)
  have same : h'.cookie = h.cookie := by simpa using List.find?_some found
  rw [found, List.inj_on_of_nodup_map distinct (List.mem_of_find?_eq_some found) mem same]

lemma splitReplies_frame {fuel : Nat} {outstanding : List RequestHeader}
    (distinct : (outstanding.map (·.cookie)).Nodup) {a : ClientReply} (mem : a.header ∈ outstanding)
    (fits : a.data.length = a.header.dataLen a.error) (rest : Buf) :
    splitReplies (fuel + 1) outstanding (a.frame ++ rest) =
      (splitReplies fuel (outstanding.erase a.header) rest).map (a :: ·) := by
  have len := length_encodeSimpleReply a.header.cookie a.error
  have split : a.frame ++ rest = encodeSimpleReply a.header.cookie a.error ++ (a.data ++ rest) :=
    List.append_assoc _ _ _
  have some_bytes : ¬ encodeSimpleReply a.header.cookie a.error ++ (a.data ++ rest) = [] := by
    intro none
    rw [List.append_eq_nil_iff] at none
    rw [none.1] at len
    exact absurd len (by decide)
  have parsed : parseSimpleReply (encodeSimpleReply a.header.cookie a.error) =
      .ok ⟨a.header.cookie, a.error⟩ := parseSimpleReply_eq_ok.2 rfl
  have long : ¬ (a.data ++ rest).length < a.data.length := by
    rw [List.length_append]
    omega
  rw [split, splitReplies, if_neg some_bytes, List.take_left' len, List.drop_left' len, parsed]
  simp only [Except.toOption, Option.bind_eq_bind, Option.bind_some, find?_cookie distinct mem,
    ← fits, if_neg long, List.take_left, List.drop_left]
  cases splitReplies fuel (outstanding.erase a.header) rest <;> rfl

lemma clientReplies_frames {outstanding : List RequestHeader}
    (distinct : (outstanding.map (·.cookie)).Nodup) {answers : List ClientReply}
    (once : (answers.map (·.header)).Perm outstanding)
    (fits : ∀ a ∈ answers, a.data.length = a.header.dataLen a.error) :
    clientReplies outstanding (answers.flatMap (·.frame)) = some answers := by
  have len := once.length_eq
  rw [List.length_map] at len
  rw [clientReplies, ← len]
  clear len
  induction answers generalizing outstanding with
  | nil => rfl
  | cons a answers ih =>
    obtain ⟨first, fits⟩ := List.forall_mem_cons.1 fits
    have mem : a.header ∈ outstanding := once.subset List.mem_cons_self
    have rest : (answers.map (·.header)).Perm (outstanding.erase a.header) :=
      List.cons_perm_iff_perm_erase.1 once |>.2
    have distinct' : ((outstanding.erase a.header).map (·.cookie)).Nodup :=
      distinct.sublist (List.erase_sublist.map _)
    rw [List.flatMap_cons, List.length_cons, splitReplies_frame distinct mem first,
      ih distinct' rest fits]
    rfl

namespace ConnectionReply

def code (r : ConnectionReply) : UInt32 :=
  match r.payload with
  | .exported .read (.ok (.read _)) => 0
  | .exported .simple (.ok .done) => 0
  | .exported _ _ => NBD_EINVAL
  | .simpleError error => error

def data (r : ConnectionReply) : Buf :=
  match r.payload with
  | .exported .read (.ok (.read data)) => data
  | _ => []

lemma frame_eq (r : ConnectionReply) : r.frame = encodeSimpleReply r.cookie r.code ++ r.data := by
  obtain ⟨cookie, payload⟩ := r
  cases payload with
  | simpleError error => exact (List.append_nil _).symm
  | exported kind result =>
    rcases kind <;> rcases result with e | (bytes | _) <;> rfl

end ConnectionReply

end NbdServer
