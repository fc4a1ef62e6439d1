import ProgramExplorer.Bincode

/-!
# The image service's answer

A client asks for an image over a seqpacket socket and gets one packet back:
the encoded response, with the image's file descriptor beside it. The packet
is as long as the image's configuration makes it, the client's buffer is not,
and the socket drops what does not fit.
-/

set_option autoImplicit false

namespace ProgramExplorer.ImageService
open ByteStrings Bincode

section Types

inductive Os where
  | linux
  deriving DecidableEq

inductive Arch where
  | amd64
  | arm64
  deriving DecidableEq

structure Config where
  user : Option Text
  exposedPorts : Option (Vec Text)
  env : Option (Vec Text)
  entrypoint : Option (Vec Text)
  cmd : Option (Vec Text)
  workingDir : Option Text
  stopSignal : Option Text
  deriving DecidableEq

structure ImageConfiguration where
  architecture : Arch
  os : Os
  config : Option Config
  deriving DecidableEq

structure Request where
  reference : Text
  arch : Arch
  os : Os
  deriving DecidableEq

inductive WireResponse where
  | ok (manifestDigest : Text) (config : ImageConfiguration)
  | noMatchingManifest
  | manifestNotFound
  | imageTooBig
  | ratelimitExceeded
  | err (message : Text)
  deriving DecidableEq

structure Response (Fd : Type) where
  manifestDigest : Text
  config : ImageConfiguration
  fd : Fd
  deriving DecidableEq

inductive Error where
  | encode
  | decode
  | missingFd
  | messageTooBig
  | serverError (message : Text)
  | noMatchingManifest
  | manifestNotFound
  | imageTooBig
  | ratelimitExceeded
  deriving DecidableEq

end Types

section Codecs

def osCodec : Codec Os :=
  (variant 1 (by decide)).imap (fun _ => .linux) (fun _ => 0) (fun | .linux => rfl)

def archCodec : Codec Arch :=
  twoVariants .amd64 .arm64 (· = .amd64) (fun | .amd64 => rfl | .arm64 => rfl)

def configCodec : Codec Config :=
  (text.option.pair <| text.vec.option.pair <| text.vec.option.pair <| text.vec.option.pair <|
    text.vec.option.pair <| text.option.pair text.option).imap
    (fun (user, ports, env, entrypoint, cmd, dir, signal) =>
      ⟨user, ports, env, entrypoint, cmd, dir, signal⟩)
    (fun c => (c.user, c.exposedPorts, c.env, c.entrypoint, c.cmd, c.workingDir, c.stopSignal))
    fun _ => rfl

def imageConfigurationCodec : Codec ImageConfiguration :=
  (archCodec.pair <| osCodec.pair configCodec.option).imap
    (fun (arch, os, config) => ⟨arch, os, config⟩) (fun c => (c.architecture, c.os, c.config))
    fun _ => rfl

def requestCodec : Codec Request :=
  (text.pair <| archCodec.pair osCodec).imap
    (fun (reference, arch, os) => ⟨reference, arch, os⟩) (fun r => (r.reference, r.arch, r.os))
    fun _ => rfl

def Fields : Fin 6 → Type
  | 0 => Text × ImageConfiguration
  | 5 => Text
  | 1 | 2 | 3 | 4 => Unit

def fieldsCodec : (i : Fin 6) → Codec (Fields i)
  | 0 => text.pair imageConfigurationCodec
  | 5 => text
  | 1 | 2 | 3 | 4 => unit

def wireResponseCodec : Codec WireResponse :=
  ((variant 6 (by decide)).sigma fieldsCodec).imap
    (fun
      | ⟨0, x⟩ => .ok x.1 x.2
      | ⟨1, _⟩ => .noMatchingManifest
      | ⟨2, _⟩ => .manifestNotFound
      | ⟨3, _⟩ => .imageTooBig
      | ⟨4, _⟩ => .ratelimitExceeded
      | ⟨5, message⟩ => .err message)
    (fun
      | .ok manifestDigest config => ⟨0, (manifestDigest, config)⟩
      | .noMatchingManifest => ⟨1, ()⟩
      | .manifestNotFound => ⟨2, ()⟩
      | .imageTooBig => ⟨3, ()⟩
      | .ratelimitExceeded => ⟨4, ()⟩
      | .err message => ⟨5, message⟩)
    (fun
      | .ok _ _ | .noMatchingManifest | .manifestNotFound | .imageTooBig | .ratelimitExceeded
      | .err _ => rfl)

/-- `bincode` on the two messages. -/
structure WireFormat where
  request : Codec Request
  response : Codec WireResponse

def standardFormat : WireFormat := ⟨requestCodec, wireResponseCodec⟩

end Codecs

section Socket

variable {Fd : Type}

structure Packet (Fd : Type) where
  bytes : Bytes
  fds : List Fd

def cmsgSpace (fds : ℕ) : ℕ := 16 + (4 * fds + 7) / 8 * 8

structure Received (Fd : Type) where
  bytes : Bytes
  truncated : Bool
  fds : List Fd

/-- One packet into a buffer. Of the two ways to lose something only the loss
of descriptors is reported. -/
def recvVectoredWithAncillary (bufLen ancillaryLen : ℕ) (packet : Packet Fd) : Received Fd where
  bytes := packet.bytes.take bufLen
  truncated := ancillaryLen < cmsgSpace packet.fds.length
  fds := packet.fds.take ((ancillaryLen - 16) / 4)

end Socket

section Exchange

variable {Fd : Type} (bincode : WireFormat)

def maxMessagLen : ℕ := 1024

def ancillaryBufferLen : ℕ := 128

def encodeIntoSlice {α : Type} (c : Codec α) (x : α) (len : ℕ) : Except Error Bytes :=
  if (c.encode x).length ≤ len then .ok (c.encode x) else .error .encode

def respondOk (manifestDigest : Text) (config : ImageConfiguration) (erofsFd : Fd) : Packet Fd :=
  ⟨bincode.response.encode (.ok manifestDigest config), [erofsFd]⟩

def readResponse (received : Received Fd) : Except Error (Response Fd) :=
  if received.truncated then .error .messageTooBig
  else
    match bincode.response.decode received.bytes with
    | none => .error .decode
    | some (wireResponse, _) =>
      match received.fds.head?, wireResponse with
      | some fd, .ok manifestDigest config => .ok ⟨manifestDigest, config, fd⟩
      | _, .noMatchingManifest => .error .noMatchingManifest
      | _, .manifestNotFound => .error .manifestNotFound
      | _, .imageTooBig => .error .imageTooBig
      | _, .ratelimitExceeded => .error .ratelimitExceeded
      | _, .err message => .error (.serverError message)
      | none, _ => .error .missingFd

def requestErofsImage (serve : Bytes → Packet Fd) (req : Request) : Except Error (Response Fd) := do
  let message ← encodeIntoSlice bincode.request req maxMessagLen
  readResponse bincode (recvVectoredWithAncillary maxMessagLen ancillaryBufferLen (serve message))

end Exchange

section Delivery

variable {Fd : Type} (bincode : WireFormat)

theorem recv_respondOk (manifestDigest : Text) (config : ImageConfiguration) (erofsFd : Fd) :
    recvVectoredWithAncillary maxMessagLen ancillaryBufferLen (respondOk bincode manifestDigest config erofsFd) =
      ⟨(bincode.response.encode (.ok manifestDigest config)).take maxMessagLen, false, [erofsFd]⟩ := by
  simp [recvVectoredWithAncillary, respondOk, cmsgSpace, ancillaryBufferLen]

theorem readResponse_whole (manifestDigest : Text) (config : ImageConfiguration) (erofsFd : Fd) :
    readResponse bincode ⟨bincode.response.encode (.ok manifestDigest config), false, [erofsFd]⟩ =
      .ok ⟨manifestDigest, config, erofsFd⟩ := by
  simp [readResponse, bincode.response.decode_exact]

theorem readResponse_cut (response : WireResponse) (fds : List Fd) {k : ℕ}
    (hk : k < (bincode.response.encode response).length) :
    readResponse bincode ⟨(bincode.response.encode response).take k, false, fds⟩ = .error .decode := by
  simp [readResponse, bincode.response.decode_take response hk]

/-- A response that fits is delivered. One that does not fit is cut, and what
is left of it cannot be decoded. -/
theorem requestErofsImage_eq (serve : Bytes → Packet Fd) (req : Request) (manifestDigest : Text)
    (config : ImageConfiguration) (erofsFd : Fd)
    (hreq : (bincode.request.encode req).length ≤ maxMessagLen)
    (hserve : serve (bincode.request.encode req) = respondOk bincode manifestDigest config erofsFd) :
    requestErofsImage bincode serve req =
      if (bincode.response.encode (.ok manifestDigest config)).length ≤ maxMessagLen then
        .ok ⟨manifestDigest, config, erofsFd⟩
      else .error .decode := by
  have hsent : encodeIntoSlice bincode.request req maxMessagLen =
      .ok (bincode.request.encode req) := if_pos hreq
  have hrun : requestErofsImage bincode serve req = readResponse bincode
      ⟨(bincode.response.encode (.ok manifestDigest config)).take maxMessagLen, false, [erofsFd]⟩ := by
    rw [← recv_respondOk, ← hserve, requestErofsImage, hsent]
    rfl
  rw [hrun]
  split_ifs with hlen
  · rw [List.take_of_length_le hlen, readResponse_whole]
  · exact readResponse_cut bincode _ _ (not_le.mp hlen)

theorem response_delivered_iff (serve : Bytes → Packet Fd) (req : Request) (manifestDigest : Text)
    (config : ImageConfiguration) (erofsFd : Fd)
    (hreq : (bincode.request.encode req).length ≤ maxMessagLen)
    (hserve : serve (bincode.request.encode req) = respondOk bincode manifestDigest config erofsFd) :
    ((requestErofsImage bincode serve req = .ok ⟨manifestDigest, config, erofsFd⟩ ∨
        requestErofsImage bincode serve req = .error .messageTooBig) ∧
      requestErofsImage bincode serve req ≠ .error .decode) ↔
      (bincode.response.encode (.ok manifestDigest config)).length ≤ maxMessagLen := by
  rw [requestErofsImage_eq bincode serve req manifestDigest config erofsFd hreq hserve]
  split_ifs with hlen <;> simp [hlen]

def sampleRequest : Request := ⟨⟨['b', 'u', 's', 'y', 'b', 'o', 'x'], by decide⟩, .amd64, .linux⟩

def sampleDigest : Text := ⟨['s', 'h', 'a', '2', '5', '6', ':'] ++ List.replicate 64 '0', by decide +kernel⟩

def sampleConfiguration (env : Vec Text) : ImageConfiguration :=
  ⟨.amd64, .linux, some ⟨some ⟨['r', 'o', 'o', 't'], by decide⟩, none, some env, none,
    some ⟨[⟨['s', 'h'], by decide⟩], by decide⟩, some ⟨['/'], by decide⟩, none⟩⟩

/-- It has this one image and answers nothing else. -/
def sampleService (config : ImageConfiguration) (message : Bytes) : Packet ℕ :=
  if message = requestCodec.encode sampleRequest then respondOk standardFormat sampleDigest config 3
  else ⟨[], []⟩

def shortEnv : Vec Text := ⟨[⟨['A', '=', '1'], by decide⟩], by decide⟩

theorem response_delivered_small :
    (requestErofsImage standardFormat (sampleService (sampleConfiguration shortEnv)) sampleRequest =
        .ok ⟨sampleDigest, sampleConfiguration shortEnv, 3⟩ ∨
      requestErofsImage standardFormat (sampleService (sampleConfiguration shortEnv)) sampleRequest =
        .error .messageTooBig) ∧
    requestErofsImage standardFormat (sampleService (sampleConfiguration shortEnv)) sampleRequest ≠
      .error .decode :=
  (response_delivered_iff standardFormat _ sampleRequest sampleDigest (sampleConfiguration shortEnv) 3
    (by decide) (if_pos rfl)).mpr (by decide +kernel)

def longEnv : Vec Text := ⟨[⟨List.replicate 1000 'A', by decide +kernel⟩], by decide⟩

theorem long_response_undecodable :
    requestErofsImage standardFormat (sampleService (sampleConfiguration longEnv)) sampleRequest =
      .error .decode := by
  have hlong : ¬ (wireResponseCodec.encode
      (.ok sampleDigest (sampleConfiguration longEnv))).length ≤ maxMessagLen := by
    decide +kernel
  exact (requestErofsImage_eq standardFormat _ sampleRequest sampleDigest (sampleConfiguration longEnv) 3
    (by decide) (if_pos rfl)).trans (if_neg hlong)

end Delivery

end ProgramExplorer.ImageService
