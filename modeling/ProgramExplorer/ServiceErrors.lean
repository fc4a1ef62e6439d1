import ProgramExplorer.ImageService
import ProgramExplorer.OcidistCache
import ProgramExplorer.SquashErofs

/-!
# Errors of the image service

`peimage-service/src/main.rs` passes errors on with the question mark, which
puts each into an `anyhow::Error` that still knows its type. A cache shares the
error of a computation in an `Arc`, and the one around the images puts that
into an error of the service. `respond_err` asks for three types, in this
order, and answers anything else with one message.
-/

set_option autoImplicit false

namespace ProgramExplorer.ServiceErrors
open ByteStrings BlobKeys Digests MemoCache StateRules
open FileSession (Session)
open Publishing (Name)
open Bincode (Text)
open ImageService (WireResponse ImageConfiguration WireFormat)
open OcidistCache (Registries IndexFormat ImageReference getImageManifestAndConfiguration)
open SquashErofs (TarEntry squashToErofs)

section Errors

/-- `ocidist_cache::Error`: what a download fails with, and what the client
adds. Nothing builds `noMatchingManifest`. -/
inductive CacheError where
  | download (e : Downloads.Error)
  | noMatchingManifest
  | errno
  | decodeError
  | oneshotRx
  | blobMissing
  | cachedFileSizeMismatch
  deriving DecidableEq

inductive ServiceError (ε : Type) where
  | badDigest
  | badReference
  | oneshotRx
  | missingFile
  | openFile
  | totalLayerSizeTooBig
  | arc (e : ε)

inductive Anyhow where
  | cache (e : CacheError)
  | arcCache (e : CacheError)
  | service (e : ServiceError Anyhow)
  | arcService (e : ServiceError Anyhow)
  | squash (e : SquashMachine.Error)
  | arcSquash (e : SquashMachine.Error)
  | publishing (e : Publishing.Error)
  | recv
  | decode

def Anyhow.downcastArcCache : Anyhow → Option CacheError
  | .arcCache e => some e
  | _ => none

def Anyhow.downcastArcService : Anyhow → Option (ServiceError Anyhow)
  | .arcService e => some e
  | _ => none

def Anyhow.downcastArcSquash : Anyhow → Option SquashMachine.Error
  | .arcSquash e => some e
  | _ => none

def unexpectedError : Text := ⟨"unexpected error".toList, by decide⟩

def wireResponse (error : Anyhow) : Option WireResponse :=
  match error.downcastArcCache with
  | some e =>
    match e with
    | .download .manifestNotFound => some .manifestNotFound
    | .noMatchingManifest => some .noMatchingManifest
    | .download (.client .ratelimitExceeded) => some .ratelimitExceeded
    | _ => none
  | none =>
    match error.downcastArcService with
    | some e =>
      match e with
      | .totalLayerSizeTooBig => some .imageTooBig
      | _ => none
    | none =>
      match error.downcastArcSquash with
      | some e =>
        match e with
        | .erofs .maxSizeExceeded => some .imageTooBig
        | _ => none
      | none => none

def respondErr (error : Anyhow) : WireResponse := (wireResponse error).getD (.err unexpectedError)

end Errors

section Service

inductive MediaType where
  | imageLayer
  | imageLayerGzip
  | imageLayerZstd
  | dockerImageLayerGzip

inductive Compression where
  | none
  | gzip
  | zstd

def MediaType.compression : MediaType → Compression
  | .imageLayer => .none
  | .imageLayerGzip => .gzip
  | .dockerImageLayerGzip => .gzip
  | .imageLayerZstd => .zstd

structure LayerDescriptor extends Descriptor where
  mediaType : MediaType

structure ImageAndConfiguration where
  manifestDigest : Digest
  layers : List LayerDescriptor
  configuration : ImageConfiguration

/-- What the service has from the outside: the format of the messages, the
parser of references, the packed form of an image, the state that a file
operation starts from, the descriptors of files and the entries that the tar
crate finds in a layer. -/
structure Host (Packed Fd : Type) where
  bincode : WireFormat
  parseReference : Text → Option ImageReference
  unpack : Packed → Option ImageAndConfiguration
  disk : BlobKey → Session Name
  receiveBlob : BlobKey → Option Fd
  openBlob : BlobKey → Except Unit (Option Fd)
  fileSize : Fd → Option ℕ
  entries : Compression → Fd → List (Except SquashMachine.Error TarEntry)
  receiveImage : BlobKey → Option Fd
  openImage : BlobKey → Except Unit (Option Fd)

structure Service (Packed : Type) where
  client : OcidistCache.Client Packed
  blobs : Cache BlobKey ℕ
  images : Cache BlobKey ℕ

def maxTotalLayerSize : ℕ := 2000000000

def maxImageSize : UInt64 := 3000000000

def requestLen : ℕ := 1024

variable {Manifest Configuration Packed Fd : Type}
variable (format : IndexFormat Manifest Configuration Packed) (sha256 : Bytes → Bytes)
variable (registries : Registries) (host : Host Packed Fd)

def getBlob (reference : ImageReference) (descriptor : Descriptor) :
    EStateM CacheError (Cache BlobKey ℕ) Fd := do
  let key ← check (okOr (BlobKey.new descriptor.digest.text) (.download .badDigest))
  let cache ← get
  let _ ← orTryInsertWith key <| (result (Downloads.retreiveBlob sha256
    (registries.answering reference .imageManifest) descriptor key true (host.disk key))).mapError .download
  let fd ← match InsertionMap.get cache key with
    | none => check (okOr (host.receiveBlob key) .oneshotRx)
    | some _ => do
      let file ← check ((host.openBlob key).mapError fun _ => .errno)
      check (okOr file .blobMissing)
  let size ← check (okOr (host.fileSize fd) .errno)
  require (size = descriptor.size) .cachedFileSizeMismatch
  pure fd

/-- The downloads run side by side, and their results are taken in the order of
the layers. -/
def getLayers (reference : ImageReference) (layers : List LayerDescriptor) :
    EStateM CacheError (Cache BlobKey ℕ) (List Fd) :=
  layers.mapM fun layer => getBlob sha256 registries host reference layer.toDescriptor

def totalLayerSize (layers : List LayerDescriptor) : ℕ :=
  layers.foldl (fun x layer => min (x + layer.size) (2 ^ 64 - 1)) 0

def openedLayers (layers : List LayerDescriptor) (fds : List Fd) :
    List (List (Except SquashMachine.Error TarEntry)) :=
  (layers.zip fds).map fun layer => host.entries layer.1.mediaType.compression layer.2

/-- The file is made before the layers are read and gets its name after. -/
def makeErofsImage (reference : ImageReference) (layers : List LayerDescriptor) (key : BlobKey) :
    EStateM Anyhow (Cache BlobKey ℕ) ℕ := do
  require (totalLayerSize layers ≤ maxTotalLayerSize) (.service .totalLayerSizeTooBig)
  let fds ← EStateM.adaptExcept .arcCache (getLayers sha256 registries host reference layers)
  check ((result (Publishing.openatCreateWriteWithGuard .errno (Publishing.keyTarget key)
    (host.disk key))).mapError .publishing)
  let (_, _, image) ← check ((squashToErofs (openedLayers host layers fds)
    (ErofsBuilder.Builder.new ⟨some maxImageSize, some 1000⟩)).mapError .squash)
  check ((result (Publishing.makeErofsImage key [(0, image)] true (host.disk key))).mapError .publishing)

def imageEntry (key : BlobKey) (init : EStateM Anyhow (Cache BlobKey ℕ) ℕ) :
    EStateM Anyhow (Service Packed) Bool := fun s =>
  match InsertionMap.get s.images key with
  | some _ => .ok false s
  | none =>
    match init s.blobs with
    | .ok size blobs => .ok true { s with blobs := blobs, images := InsertionMap.set key size s.images }
    | .error e blobs => .error (.service (.arc e)) { s with blobs := blobs }

def readRequest (packet : Option Bytes) : Except Anyhow ImageReference := do
  let buf ← okOr packet .recv
  let (req, _) ← okOr (host.bincode.request.decode (buf.take requestLen)) .decode
  okOr (host.parseReference req.reference) (.service .badReference)

def platformCall (reference : ImageReference) : OcidistCache.Call := ⟨reference, .amd64, .linux⟩

def lookUp (reference : ImageReference) :
    EStateM Anyhow (Service Packed) (ImageAndConfiguration × BlobKey) := do
  let packed ← within Service.client (fun client s => { s with client := client }) <|
    EStateM.adaptExcept (fun e => .arcCache (.download e)) <|
      getImageManifestAndConfiguration format sha256 registries (platformCall reference)
  let image ← check (okOr (host.unpack packed) (.cache .decodeError))
  let key ← check (okOr (BlobKey.new image.manifestDigest.text) (.service .badDigest))
  pure (image, key)

def imageFd (key : BlobKey) (fresh : Bool) : Except Anyhow Fd :=
  if fresh then okOr (host.receiveImage key) (.service .oneshotRx)
  else
    match host.openImage key with
    | .ok (some fd) => .ok fd
    | .ok none => .error (.service .missingFile)
    | .error _ => .error (.service .openFile)

def handleConn (packet : Option Bytes) :
    EStateM Anyhow (Service Packed) (Digest × ImageConfiguration × Fd) := do
  let reference ← check (readRequest host packet)
  let (image, key) ← lookUp format sha256 registries host reference
  let fresh ← imageEntry key (makeErofsImage sha256 registries host reference image.layers key)
  let fd ← check (imageFd host key fresh)
  pure (image.manifestDigest, image.configuration, fd)

end Service

section Causes

inductive Cause where
  | noManifest
  | noMatchingManifest
  | layersTooBig
  | maxSizeExceeded
  | manifestRatelimit
  | layerRatelimit
  deriving DecidableEq

def expected : Cause → WireResponse
  | .noManifest => .manifestNotFound
  | .noMatchingManifest => .noMatchingManifest
  | .layersTooBig => .imageTooBig
  | .maxSizeExceeded => .imageTooBig
  | .manifestRatelimit => .ratelimitExceeded
  | .layerRatelimit => .ratelimitExceeded

def Kept (cause : Cause) : Prop := cause = .noManifest ∨ cause = .manifestRatelimit

instance : DecidablePred Kept := fun _ => instDecidableOr

variable {Manifest Configuration Packed Fd : Type}
variable (format : IndexFormat Manifest Configuration Packed) (sha256 : Bytes → Bytes)
variable (registries : Registries) (host : Host Packed Fd)

def NotGot (packet : Option Bytes) (s : Service Packed) (e : Downloads.Error) : Prop :=
  ∃ reference, readRequest host packet = .ok reference ∧
    OcidistCache.answer format sha256 registries s.client (platformCall reference) = .error e

structure Builds (packet : Option Bytes) (s : Service Packed) (reference : ImageReference)
    (image : ImageAndConfiguration) (key : BlobKey) (s' : Service Packed) : Prop where
  request : readRequest host packet = .ok reference
  found : lookUp format sha256 registries host reference s = .ok (image, key) s'
  missing : InsertionMap.get s'.images key = none

inductive Because (packet : Option Bytes) (s : Service Packed) : Cause → Prop
  | noManifest : NotGot format sha256 registries host packet s .manifestNotFound →
    Because packet s .noManifest
  | noMatchingManifest : NotGot format sha256 registries host packet s (.client .noMatchingManifest) →
    Because packet s .noMatchingManifest
  | manifestRatelimit : NotGot format sha256 registries host packet s (.client .ratelimitExceeded) →
    Because packet s .manifestRatelimit
  | layersTooBig {reference image key s'} :
    Builds format sha256 registries host packet s reference image key s' →
    maxTotalLayerSize < totalLayerSize image.layers → Because packet s .layersTooBig
  | layerRatelimit {reference image key s'} :
    Builds format sha256 registries host packet s reference image key s' →
    totalLayerSize image.layers ≤ maxTotalLayerSize →
    result (getLayers sha256 registries host reference image.layers s'.blobs) =
      .error (.download (.client .ratelimitExceeded)) → Because packet s .layerRatelimit
  | maxSizeExceeded {reference image key s' fds created} :
    Builds format sha256 registries host packet s reference image key s' →
    totalLayerSize image.layers ≤ maxTotalLayerSize →
    result (getLayers sha256 registries host reference image.layers s'.blobs) = .ok fds →
    result (Publishing.openatCreateWriteWithGuard Publishing.Error.errno (Publishing.keyTarget key)
      (host.disk key)) = .ok created →
    squashToErofs (openedLayers host image.layers fds)
      (ErofsBuilder.Builder.new ⟨some maxImageSize, some 1000⟩) = .error (.erofs .maxSizeExceeded) →
    Because packet s .maxSizeExceeded

end Causes

section Kinds

variable {Manifest Configuration Packed Fd : Type}
variable {format : IndexFormat Manifest Configuration Packed} {sha256 : Bytes → Bytes}
variable {registries : Registries} {host : Host Packed Fd}
variable {packet : Option Bytes} {s s' : Service Packed} {reference : ImageReference}
variable {image : ImageAndConfiguration} {key : BlobKey} {blobs blobs' : Cache BlobKey ℕ}

theorem handleConn_of_notGot {e : Downloads.Error} (h : NotGot format sha256 registries host packet s e) :
    ∃ s', handleConn format sha256 registries host packet s = .error (.arcCache (.download e)) s' := by
  obtain ⟨reference, hrequest, hanswer⟩ := h
  have hlookUp : ∃ s', lookUp format sha256 registries host reference s =
      .error (.arcCache (.download e)) s' :=
    ⟨_, bind_of_error (within_error (adaptExcept_error (error_of_result hanswer) _)) _⟩
  obtain ⟨s', hlookUp⟩ := hlookUp
  refine ⟨s', ?_⟩
  unfold handleConn
  rw [bind_of_ok (check_eq_ok.mpr ⟨hrequest, rfl⟩), bind_of_error hlookUp]

theorem handleConn_of_builds {e : Anyhow}
    (h : Builds format sha256 registries host packet s reference image key s')
    (hbuild : makeErofsImage sha256 registries host reference image.layers key s'.blobs = .error e blobs) :
    handleConn format sha256 registries host packet s =
      .error (.service (.arc e)) { s' with blobs := blobs } := by
  have hentry : imageEntry key (makeErofsImage sha256 registries host reference image.layers key) s' =
      .error (.service (.arc e)) { s' with blobs := blobs } := by
    simp only [imageEntry, h.missing, hbuild]
  unfold handleConn
  rw [bind_of_ok (check_eq_ok.mpr ⟨h.request, rfl⟩), bind_of_ok h.found]
  exact bind_of_error hentry _

theorem makeErofsImage_too_big {layers : List LayerDescriptor}
    (h : maxTotalLayerSize < totalLayerSize layers) :
    makeErofsImage sha256 registries host reference layers key blobs =
      .error (.service .totalLayerSizeTooBig) blobs :=
  bind_of_error (require_of_not h.not_ge _ _) _

section Sized

variable {layers : List LayerDescriptor} (hsize : totalLayerSize layers ≤ maxTotalLayerSize)
include hsize

theorem makeErofsImage_layers {e : CacheError}
    (h : getLayers sha256 registries host reference layers blobs = .error e blobs') :
    makeErofsImage sha256 registries host reference layers key blobs = .error (.arcCache e) blobs' := by
  unfold makeErofsImage
  rw [bind_of_ok (require_of hsize _ _), bind_of_error (adaptExcept_error h _)]

theorem makeErofsImage_squash {fds : List Fd} {e : SquashMachine.Error} {created : Unit}
    (hlayers : getLayers sha256 registries host reference layers blobs = .ok fds blobs')
    (hcreate : result (Publishing.openatCreateWriteWithGuard Publishing.Error.errno
      (Publishing.keyTarget key) (host.disk key)) = .ok created)
    (hsquash : squashToErofs (openedLayers host layers fds)
      (ErofsBuilder.Builder.new ⟨some maxImageSize, some 1000⟩) = .error e) :
    makeErofsImage sha256 registries host reference layers key blobs = .error (.squash e) blobs' := by
  unfold makeErofsImage
  rw [bind_of_ok (require_of hsize _ _), bind_of_ok (adaptExcept_ok hlayers _),
    bind_of_ok (check_eq_ok.mpr ⟨Downloads.mapError_eq_ok.mpr hcreate, rfl⟩),
    bind_of_error (check_mapError hsquash _ _)]

end Sized

theorem handleConn_because {cause : Cause} (h : Because format sha256 registries host packet s cause) :
    ∃ e s', handleConn format sha256 registries host packet s = .error e s' ∧
      respondErr e = if Kept cause then expected cause else .err unexpectedError := by
  cases h with
  | noManifest h =>
    obtain ⟨s', hrun⟩ := handleConn_of_notGot h
    exact ⟨_, s', hrun, rfl⟩
  | noMatchingManifest h =>
    -- the client's error is inside a `ClientError`, not the variant that is asked for
    obtain ⟨s', hrun⟩ := handleConn_of_notGot h
    exact ⟨_, s', hrun, rfl⟩
  | manifestRatelimit h =>
    obtain ⟨s', hrun⟩ := handleConn_of_notGot h
    exact ⟨_, s', hrun, rfl⟩
  | layersTooBig h hbig => exact ⟨_, _, handleConn_of_builds h (makeErofsImage_too_big hbig), rfl⟩
  | layerRatelimit h hsize hlayers =>
    exact ⟨_, _, handleConn_of_builds h (makeErofsImage_layers hsize (error_of_result hlayers)), rfl⟩
  | maxSizeExceeded h hsize hlayers hcreate hsquash =>
    exact ⟨_, _, handleConn_of_builds h
      (makeErofsImage_squash hsize (ok_of_result hlayers) hcreate hsquash), rfl⟩

theorem unexpected_ne_expected (cause : Cause) : .err unexpectedError ≠ expected cause := by
  cases cause <;> exact nofun

theorem readRequest_sent {req : ImageService.Request}
    (hlen : (host.bincode.request.encode req).length ≤ requestLen)
    (hparse : host.parseReference req.reference = some reference) :
    readRequest host (some (host.bincode.request.encode req)) = .ok reference := by
  have hdecode : host.bincode.request.decode ((host.bincode.request.encode req).take requestLen) =
      some (req, []) := by
    rw [List.take_of_length_le hlen, host.bincode.request.decode_exact]
  exact except_bind_eq_ok.mpr ⟨_, rfl, except_bind_eq_ok.mpr
    ⟨_, okOr_eq_ok.mpr hdecode, okOr_eq_ok.mpr hparse⟩⟩

theorem lookUp_of_got {packed : Packed}
    (hanswer : OcidistCache.answer format sha256 registries s.client (platformCall reference) = .ok packed)
    (hunpack : host.unpack packed = some image)
    (hkey : BlobKey.new image.manifestDigest.text = some key) :
    ∃ client, lookUp format sha256 registries host reference s =
      .ok (image, key) { s with client := client } := by
  refine ⟨stateAfter (getImageManifestAndConfiguration format sha256 registries (platformCall reference)
    s.client), ?_⟩
  unfold lookUp
  rw [bind_of_ok (within_ok (adaptExcept_ok (ok_of_result hanswer) _)),
    bind_of_ok (check_eq_ok.mpr ⟨okOr_eq_ok.mpr hunpack, rfl⟩),
    bind_of_ok (check_eq_ok.mpr ⟨okOr_eq_ok.mpr hkey, rfl⟩)]
  rfl

theorem error_kind_iff (format : IndexFormat Manifest Configuration Packed) (sha256 : Bytes → Bytes)
    (registries : Registries) (host : Host Packed Fd) (packet : Option Bytes) (s : Service Packed)
    (cause : Cause) (h : Because format sha256 registries host packet s cause) :
    ∃ e s', handleConn format sha256 registries host packet s = .error e s' ∧
      (respondErr e = expected cause ↔ Kept cause) ∧
      (¬ Kept cause → respondErr e = .err unexpectedError) := by
  obtain ⟨e, s', hrun, hresponse⟩ := handleConn_because h
  refine ⟨e, s', hrun, ?_, fun hkept => hresponse.trans (if_neg hkept)⟩
  rw [hresponse]
  split_ifs with hkept
  · exact iff_of_true rfl hkept
  · exact iff_of_false (unexpected_ne_expected cause) hkept

def busyboxPacket : Bytes := ImageService.requestCodec.encode ImageService.sampleRequest

def busyboxConfiguration : ImageConfiguration := ImageService.sampleConfiguration ImageService.shortEnv

/-- Every reference is that of one image with these layers, and every file has
one byte. -/
def busyboxHost (layers : List LayerDescriptor) (entries : List TarEntry) : Host (Bytes × Bytes) ℕ where
  bincode := ImageService.standardFormat
  parseReference _ := some (OcidistCache.busyboxFor .amd64).reference
  unpack _ := some ⟨(OcidistCache.hexDescriptor 'a').digest, layers, busyboxConfiguration⟩
  disk _ := Session.start Downloads.emptyDisk fun _ => none
  receiveBlob _ := some 3
  openBlob _ := .ok (some 3)
  fileSize _ := some 1
  entries _ _ := entries.map .ok
  receiveImage _ := some 4
  openImage _ := .ok (some 4)

def Service.empty : Service (Bytes × Bytes) := ⟨.empty, [], []⟩

def busyboxKey : BlobKey := ⟨(OcidistCache.hexDescriptor 'a').digest.text, by decide⟩

theorem readRequest_busybox (layers : List LayerDescriptor) (entries : List TarEntry) :
    readRequest (busyboxHost layers entries) (some busyboxPacket) =
      .ok (OcidistCache.busyboxFor .amd64).reference :=
  have hlen : (ImageService.requestCodec.encode ImageService.sampleRequest).length ≤ requestLen := by decide
  readRequest_sent hlen rfl

def absentRegistries : Registries where
  manifest _ _ _ _ := .ok ⟨.notFound, [], none, [], false⟩
  blob _ _ _ := .ok ⟨.notFound, [], none, [], false⟩

theorem error_kind_absent : ∃ e s',
    handleConn OcidistCache.twoArchFormat id absentRegistries (busyboxHost [] []) (some busyboxPacket)
      Service.empty = .error e s' ∧ respondErr e = .manifestNotFound := by
  have hcause : Because OcidistCache.twoArchFormat id absentRegistries (busyboxHost [] [])
      (some busyboxPacket) Service.empty .noManifest :=
    .noManifest ⟨_, readRequest_busybox _ _, by decide +kernel⟩
  obtain ⟨e, s', hrun, hkind, -⟩ := error_kind_iff _ _ _ _ _ _ _ hcause
  exact ⟨e, s', hrun, hkind.mpr (.inl rfl)⟩

def armFormat : IndexFormat Bytes Bytes (Bytes × Bytes) :=
  { OcidistCache.twoArchFormat with
    index := fun _ => some [(OcidistCache.hexDescriptor 'b', some ⟨.other ['a', 'r', 'm', '6', '4'], .linux⟩)] }

def limitedRegistries : Registries :=
  { OcidistCache.twoArchRegistries with
    blob := fun registry repository digest =>
      if digest = (OcidistCache.hexDescriptor 'c').digest then
        OcidistCache.twoArchRegistries.blob registry repository digest
      else .error .ratelimitExceeded }

def bigEntry : TarEntry :=
  ⟨[0x66], .regular, some 0, some 0, some 0, some 0o644, some 3000000000, none, some [], ⟨[], false⟩⟩

def busyboxImage (layers : List LayerDescriptor) : ImageAndConfiguration :=
  ⟨(OcidistCache.hexDescriptor 'a').digest, layers, busyboxConfiguration⟩

theorem builds_busybox (layers : List LayerDescriptor) (entries : List TarEntry) : ∃ client,
    Builds OcidistCache.twoArchFormat id limitedRegistries (busyboxHost layers entries)
      (some busyboxPacket) Service.empty (OcidistCache.busyboxFor .amd64).reference (busyboxImage layers)
      busyboxKey { Service.empty with client := client } := by
  have hkey : BlobKey.new (OcidistCache.hexDescriptor 'a').digest.text = some busyboxKey := by decide
  obtain ⟨client, hlookUp⟩ := @lookUp_of_got _ _ _ _ OcidistCache.twoArchFormat id limitedRegistries
    (busyboxHost layers entries) Service.empty (OcidistCache.busyboxFor .amd64).reference
    (busyboxImage layers) busyboxKey ([0xaa], [0xcc]) (by decide +kernel) rfl hkey
  exact ⟨client, readRequest_busybox layers entries, hlookUp, rfl⟩

def oneLayer (c : Char) (size : ℕ) : List LayerDescriptor :=
  [⟨⟨(OcidistCache.hexDescriptor c).digest, size⟩, .imageLayer⟩]

/-- The run fails for the cause, and the client gets the one message. -/
def Loses (format : IndexFormat Bytes Bytes (Bytes × Bytes)) (registries : Registries)
    (host : Host (Bytes × Bytes) ℕ) (cause : Cause) : Prop :=
  Because format id registries host (some busyboxPacket) Service.empty cause ∧
    ∃ e s', handleConn format id registries host (some busyboxPacket) Service.empty = .error e s' ∧
      respondErr e = .err unexpectedError ∧ respondErr e ≠ expected cause

theorem loses_of_because {format : IndexFormat Bytes Bytes (Bytes × Bytes)} {registries : Registries}
    {host : Host (Bytes × Bytes) ℕ} {cause : Cause} (hlost : ¬ Kept cause)
    (h : Because format id registries host (some busyboxPacket) Service.empty cause) :
    Loses format registries host cause := by
  obtain ⟨e, s', hrun, hresponse⟩ := handleConn_because h
  rw [if_neg hlost] at hresponse
  exact ⟨h, e, s', hrun, hresponse, hresponse ▸ unexpected_ne_expected cause⟩

theorem other_kinds_lost :
    Loses armFormat OcidistCache.twoArchRegistries (busyboxHost [] []) .noMatchingManifest ∧
    Loses OcidistCache.twoArchFormat limitedRegistries (busyboxHost (oneLayer 'd' 2000000001) [])
      .layersTooBig ∧
    Loses OcidistCache.twoArchFormat limitedRegistries (busyboxHost (oneLayer 'c' 1) [bigEntry])
      .maxSizeExceeded ∧
    Loses OcidistCache.twoArchFormat limitedRegistries (busyboxHost (oneLayer 'd' 1) [])
      .layerRatelimit := by
  refine ⟨loses_of_because (by decide) ?_, loses_of_because (by decide) ?_,
    loses_of_because (by decide) ?_, loses_of_because (by decide) ?_⟩
  · exact .noMatchingManifest ⟨_, readRequest_busybox _ _, by decide +kernel⟩
  · obtain ⟨client, hbuilds⟩ := builds_busybox (oneLayer 'd' 2000000001) []
    exact .layersTooBig hbuilds (by decide)
  · obtain ⟨client, hbuilds⟩ := builds_busybox (oneLayer 'c' 1) [bigEntry]
    exact @Because.maxSizeExceeded _ _ _ _ _ _ _ _ _ _ _ _ _ _ [3] () hbuilds (by decide)
      (by rfl) (by rfl) (by rfl)
  · obtain ⟨client, hbuilds⟩ := builds_busybox (oneLayer 'd' 1) []
    exact .layerRatelimit hbuilds (by decide) (by rfl)

end Kinds

end ProgramExplorer.ServiceErrors
