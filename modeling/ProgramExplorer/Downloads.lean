import ProgramExplorer.Digests
import ProgramExplorer.Publishing

/-!
# Downloads from a registry

What the registry answers is not trusted. A blob is hashed while its chunks go
to the temporary file, and gets its name only when the size and the hash are
those of the descriptor. A manifest is asked for by its digest, and names the
configuration by another.
-/

set_option autoImplicit false

namespace ProgramExplorer.Downloads
open ByteStrings BlobKeys Digests FileSystem FileSession StateRules
open Publishing (Name keyTarget openatCreateWriteWithGuard success dropGuard bracket)

section Registry

inductive Status where
  | ok
  | notFound
  | other (code : ℕ)
  deriving DecidableEq

/-- A body arrives in chunks and may break off after any of them. A header
that is not text stands for one that is not a digest, and for no content type. -/
structure Response where
  status : Status
  contentType : List Char
  dockerContentDigest : Option (List Char)
  chunks : List Bytes
  broken : Bool

inductive ClientError where
  | reqwest
  | ociSpecError
  | check (e : CheckError)
  | noTagOrDigest
  | badDigest
  | badDockerContentDigest
  | write
  | badContentType (contentType : List Char)
  | statusNotOk (code : ℕ)
  | noMatchingManifest
  | ratelimitExceeded
  | registryNotSupported (registry : List Char)
  | unknown
  deriving DecidableEq

inductive TagOrDigest where
  | tag (s : List Char)
  | digest (s : List Char)
  deriving DecidableEq

inductive Request where
  | manifest (td : TagOrDigest)
  | blob (digest : Digest)
  deriving DecidableEq

/-- What comes of a request, with the tokens and retries that it takes. -/
abbrev Registry := Request → Except ClientError Response

structure Reference where
  tag : Option (List Char)
  digest : Option (List Char)
  deriving DecidableEq

def Reference.cloneWithDigest (_ : Reference) (digest : List Char) : Reference := ⟨none, some digest⟩

def TagOrDigest.tryFrom (r : Reference) : Except ClientError TagOrDigest :=
  match r.tag, r.digest with
  | some s, none => .ok (.tag s)
  | some _, some s | none, some s => .ok (.digest s)
  | none, none => .error .noTagOrDigest

def Response.bytes (response : Response) : Except ClientError Bytes :=
  if response.broken then .error .reqwest else .ok response.chunks.flatten

end Registry

section Client

def ociImageManifestV1 : List Char := "application/vnd.oci.image.manifest.v1+json".toList

def dockerImageManifestV2 : List Char := "application/vnd.docker.distribution.manifest.v2+json".toList

/-- The parsers of the standard, and how a manifest and a configuration are
packed, are left open. -/
structure OciFormat (Manifest Configuration Packed : Type) where
  wellFormed : List Char → List Char → Bool
  manifest : Bytes → Option Manifest
  configuration : Bytes → Option Configuration
  config : Manifest → Descriptor
  pack : Digest → Manifest → Configuration → Option Packed

variable {Manifest Configuration Packed : Type}
variable (format : OciFormat Manifest Configuration Packed) (sha256 : Bytes → Bytes) (registry : Registry)

def digestFromData (data : Bytes) : Digest :=
  ⟨sha256Name, (lowerHex (sha256 data)).map fun byte => Char.ofNat byte.toNat⟩

def getDockerContentDigest (response : Response) : Except ClientError (Option Digest) :=
  match response.dockerContentDigest with
  | none => .ok none
  | some value =>
    match Digest.parse format.wellFormed value with
    | none => .error .badDockerContentDigest
    | some digest => .ok (some digest)

def manifestDigest (td : TagOrDigest) (response : Response) : Except ClientError (Option Digest) :=
  match td with
  | .digest s =>
    match Digest.parse format.wellFormed s with
    | none => .error .badDigest
    | some digest => .ok (some digest)
  | .tag _ => getDockerContentDigest format response

def checked {α : Type} (x : Except CheckError α) : Except ClientError α := x.mapError .check

def getManifest (reference : Reference) :
    Except ClientError (Option (List Char × Option Digest × Bytes)) := do
  let td ← TagOrDigest.tryFrom reference
  let response ← registry (.manifest td)
  match response.status with
  | .ok =>
    let digest ← manifestDigest format td response
    let data ← response.bytes
    checked (checkDataMatchesDigest sha256 digest data)
    .ok (some (response.contentType, digest, data))
  | .notFound => .ok none
  | .other code => .error (.statusNotOk code)

structure ImageManifestResponse where
  digest : Digest
  data : Bytes

def getImageManifest (reference : Reference) : Except ClientError (Option ImageManifestResponse) := do
  match ← getManifest format sha256 registry reference with
  | none => .ok none
  | some (contentType, digest, data) =>
    if contentType ≠ ociImageManifestV1 ∧ contentType ≠ dockerImageManifestV2 then
      .error (.badContentType contentType)
    else .ok (some ⟨digest.getD (digestFromData sha256 data), data⟩)

/-- Returns the data; the digest that goes with it is the descriptor's. -/
def getImageConfiguration (descriptor : Descriptor) : Except ClientError (Option Bytes) := do
  let response ← registry (.blob descriptor.digest)
  match response.status with
  | .ok =>
    let data ← response.bytes
    checked (checkDataMatchesDescriptor sha256 descriptor data)
    .ok (some data)
  | .notFound => .ok none
  | .other code => .error (.statusNotOk code)

inductive Error where
  | client (e : ClientError)
  | ociSpecError
  | specError
  | errno
  | io
  | oneshotTx
  | badDigest
  | missingDigest
  | manifestNotFound
  | configurationNotFound
  | blobNotFound
  deriving DecidableEq

def fromClient {α : Type} (x : Except ClientError α) : Except Error α := x.mapError .client

def found {α : Type} (e : Error) : Option α → Except Error α
  | some a => .ok a
  | none => .error e

def retreiveManifestAndConfiguration (reference : Reference) : Except Error Packed := do
  let text ← found .missingDigest reference.digest
  let digest ← found .badDigest (Digest.parse format.wellFormed text)
  let response ← fromClient (getImageManifest format sha256 registry reference)
  let manifestRes ← found .manifestNotFound response
  let manifest ← found .ociSpecError (format.manifest manifestRes.data)
  let response ← fromClient (getImageConfiguration sha256 registry (format.config manifest))
  let configurationRes ← found .configurationNotFound response
  let configuration ← found .ociSpecError (format.configuration configurationRes)
  found .specError (format.pack digest manifest configuration)

end Client

section Blobs

variable (sha256 : Bytes → Bytes) (registry : Registry)

def blobCapacity : ℕ := 32 * 1024

structure Transfer where
  len : ℕ
  hasher : Hasher

def Transfer.add (transfer : Transfer) (chunk : Bytes) : Transfer :=
  ⟨transfer.len + chunk.length, transfer.hasher.update chunk⟩

def receiveChunks : List Bytes → Transfer → Sys Name Error Transfer
  | [], transfer => pure transfer
  | chunk :: chunks, transfer => do
    asyncBufWriteAll blobCapacity (.client .write) chunk
    receiveChunks chunks (transfer.add chunk)

def receiveBlob (descriptor : Descriptor) (response : Response) : Sys Name Error ℕ := do
  let transfer ← receiveChunks response.chunks ⟨0, Hasher.new⟩
  require (response.broken = false) (.client .reqwest)
  asyncBufFlush (.client .write)
  require (descriptor.size = transfer.len) (.client (.check .sizeMismatch))
  check (fromClient (checked (checkDigestMatches sha256 descriptor.digest transfer.hasher)))
  pure transfer.len

def getBlob (descriptor : Descriptor) : Sys Name Error (Option ℕ) := do
  let response ← check (fromClient (registry (.blob descriptor.digest)))
  match response.status with
  | .ok =>
    if descriptor.digest.algorithm = sha256Name then do
      let len ← receiveBlob sha256 descriptor response
      pure (some len)
    else
      throw (.client (.check (.digestAlgorithmNotHandled descriptor.digest.algorithm)))
  | .notFound => pure none
  | .other code => throw (.client (.statusNotOk code))

def fileRewind : Sys Name Error Unit := do
  call .io fun fs => some ((), fs)
  fileSeek 0

def retreiveBlob (descriptor : Descriptor) (key : BlobKey) (received : Bool) : Sys Name Error ℕ :=
  bracket (dropGuard (keyTarget key)) do
    openatCreateWriteWithGuard .errno (keyTarget key)
    let size ← getBlob sha256 registry descriptor
    let size ← check (found .blobNotFound size)
    success .errno (keyTarget key)
    fileRewind
    require (received = true) .oneshotTx
    pure size

end Blobs

section Addressed

variable {sha256 : Bytes → Bytes} {registry : Registry}

structure Matches (sha256 : Bytes → Bytes) (descriptor : Descriptor) (data : Bytes) : Prop where
  size : data.length = descriptor.size
  names : Names sha256 descriptor.digest data

theorem mapError_eq_ok {ε ε' α : Type} {x : Except ε α} {f : ε → ε'} {a : α} :
    x.mapError f = .ok a ↔ x = .ok a := by
  cases x <;> simp [Except.mapError]

theorem foldl_add (chunks : List Bytes) (transfer : Transfer) :
    chunks.foldl Transfer.add transfer =
      ⟨transfer.len + chunks.flatten.length, ⟨transfer.hasher.seen ++ chunks.flatten⟩⟩ := by
  induction chunks generalizing transfer with
  | nil => simp
  | cons chunk chunks ih =>
    rw [List.foldl_cons, ih]
    simp [Transfer.add, Hasher.update, Nat.add_assoc]

theorem triple_receiveChunks {tmp : Name} (chunks : List Bytes) (transfer : Transfer) (all : Bytes) :
    Triple (Holds tmp all) (receiveChunks chunks transfer)
      (fun r s => Holds tmp (all ++ chunks.flatten) s ∧ r = chunks.foldl Transfer.add transfer)
      (fun _ => Quiet) := by
  induction chunks generalizing transfer all with
  | nil =>
    intro s hs
    exact ⟨by simpa using hs, rfl⟩
  | cons chunk chunks ih =>
    refine triple_bind (triple_asyncBufWriteAll blobCapacity all chunk) fun _ => ?_
    rw [List.flatten_cons, ← List.append_assoc]
    exact ih (transfer.add chunk) (all ++ chunk)

theorem triple_receiveBlob {tmp : Name} {descriptor : Descriptor} {response : Response}
    (halgorithm : descriptor.digest.algorithm = sha256Name) :
    Triple (Holding tmp [] [] []) (receiveBlob sha256 descriptor response)
      (fun _ s => Holding tmp response.chunks.flatten [] [] s ∧
        Matches sha256 descriptor response.chunks.flatten) (fun _ => Quiet) := by
  have hstart : ∀ s, Holding tmp [] [] [] s → Holds tmp [] s := fun s hs => ⟨[], [], [], rfl, hs⟩
  refine triple_bind (triple_conseq (triple_receiveChunks response.chunks _ []) hstart fun _ _ h => h)
    fun transfer => ?_
  rintro s ⟨hs, rfl⟩
  rw [List.nil_append] at hs
  refine triple_bind (P := Holds tmp response.chunks.flatten) (triple_require _ _ fun _ _ h => h.quiet)
    (fun _ => ?_) s hs
  refine triple_bind (triple_frame (triple_asyncBufFlush _) _) fun _ => ?_
  refine triple_bind (triple_require _ _ fun _ _ h => h.1.quiet) fun _ => ?_
  refine triple_bind (triple_check _ fun _ _ _ h => h.1.1.quiet) fun _ => ?_
  rintro t ⟨⟨⟨ht, -⟩, hsize⟩, hdigest⟩
  rw [foldl_add] at hsize hdigest
  refine ⟨ht, by simpa using hsize.symm, halgorithm, ?_⟩
  have hcheck := mapError_eq_ok.mp (mapError_eq_ok.mp hdigest)
  unfold checkDigestMatches at hcheck
  split_ifs at hcheck with heq
  simpa [Hasher.finalize, Hasher.new] using (digestEq_iff _ _).mp heq

def blobBody (registry : Registry) (descriptor : Descriptor) : Bytes :=
  match registry (.blob descriptor.digest) with
  | .ok response => response.chunks.flatten
  | .error _ => []

theorem triple_getBlob {tmp : Name} (descriptor : Descriptor) :
    Triple (Holding tmp [] [] []) (getBlob sha256 registry descriptor)
      (fun r s => Quiet s ∧ (∀ n, r = some n → Holding tmp (blobBody registry descriptor) [] [] s ∧
        Matches sha256 descriptor (blobBody registry descriptor))) (fun _ => Quiet) := by
  refine triple_bind (triple_check _ fun _ _ _ h => h.quiet) fun response => ?_
  rintro s ⟨hs, hresponse⟩
  have hbody : blobBody registry descriptor = response.chunks.flatten := by
    rw [blobBody, mapError_eq_ok.mp hresponse]
  cases hstatus : response.status with
  | ok =>
    simp only
    split_ifs with halgorithm
    · refine triple_bind (triple_receiveBlob halgorithm) (fun len => ?_) s hs
      intro t ht
      exact ⟨ht.1.quiet, fun _ _ => hbody ▸ ht⟩
    · exact hs.quiet
  | notFound => exact ⟨hs.quiet, fun n hn => nomatch hn⟩
  | other code => exact hs.quiet

theorem triple_fileRewind {final : Name} {first contents : Bytes} {P : Bytes → Prop} (hP : P contents) :
    Triple (fun s => Shown final first P s ∧ Open final contents s) fileRewind
      (fun _ => Shown final first P) (fun _ => Shown final first P) := by
  refine triple_bind (Q := fun _ => Shown final first P) (triple_call ?_ ?_) fun _ => ?_
  · rintro s ⟨hs, hopen⟩ u fs heq
    cases heq
    exact hs.record hP hopen.read
  · rintro s ⟨hs, hopen⟩
    exact hs.record hP hopen.read
  · exact fun _ hs => hs.same rfl rfl rfl

/-- A blob appears under its name whole, and only if it is what its name says. -/
theorem retreiveBlob_outcome (sha256 : Bytes → Bytes) (registry : Registry) (descriptor : Descriptor)
    (key : BlobKey) (received : Bool) {s : Session Name} (hs : Quiet s) :
    Publishing.Outcome key.asPath (blobBody registry descriptor)
      (fun x => x = blobBody registry descriptor ∧ Matches sha256 descriptor (blobBody registry descriptor))
      (stateAfter (retreiveBlob sha256 registry descriptor key received s)) := by
  let P : Bytes → Prop := fun x =>
    x = blobBody registry descriptor ∧ Matches sha256 descriptor (blobBody registry descriptor)
  refine Publishing.outcome_guarded (P := P) ?_ hs
  refine triple_bind (triple_mono_error Publishing.triple_open fun _ _ h => Or.inl h) fun _ => ?_
  refine triple_bind (triple_mono_error (triple_getBlob descriptor) fun _ _ h => Or.inl h) fun size => ?_
  refine triple_bind (triple_check _ fun _ _ _ h => Or.inl h.1) fun n => ?_
  rintro t ⟨ht, hsize⟩
  cases size with
  | none => cases hsize
  | some len =>
    obtain ⟨hheld, hmatches⟩ := ht.2 len rfl
    have hP : P (blobBody registry descriptor) := ⟨rfl, hmatches⟩
    refine triple_bind (Q := fun _ s => Shown key.asPath (blobBody registry descriptor) P s ∧
      Open key.asPath (blobBody registry descriptor) s) (triple_mono_error (triple_conseq
        Publishing.triple_success (fun _ h => h) fun _ _ h => ⟨h.1.mono fun x hx => hx ▸ hP, h.2.1⟩)
        fun _ _ h => Or.inl h) (fun _ => ?_) t ⟨hheld.toNamed, rfl, rfl⟩
    refine triple_bind (triple_mono_error (triple_fileRewind hP) fun _ _ => Or.inr) fun _ => ?_
    refine triple_bind (triple_require _ _ fun _ _ => Or.inr) fun _ => ?_
    exact fun _ h => Or.inr h.1

end Addressed

section Manifests

variable {Manifest Configuration Packed : Type} {format : OciFormat Manifest Configuration Packed}
variable {sha256 : Bytes → Bytes} {registry : Registry}

theorem found_eq_ok {α : Type} {e : Error} {o : Option α} {a : α} : found e o = .ok a ↔ o = some a := by
  cases o <;> simp [found]

theorem tryFrom_digest {reference : Reference} {text : List Char} (h : reference.digest = some text) :
    TagOrDigest.tryFrom reference = .ok (.digest text) := by
  unfold TagOrDigest.tryFrom
  cases reference.tag <;> rw [h]

theorem checkDataMatchesDigest_ok {digest : Digest} {data : Bytes}
    (h : checkDataMatchesDigest sha256 (some digest) data = .ok ()) : Names sha256 digest data :=
  names_of_check h

theorem getManifest_names {reference : Reference} {text contentType : List Char} {digest : Option Digest}
    {data : Bytes} (hreference : reference.digest = some text)
    (h : getManifest format sha256 registry reference = .ok (some (contentType, digest, data))) :
    ∃ d, Digest.parse format.wellFormed text = some d ∧ digest = some d ∧ Names sha256 d data := by
  unfold getManifest at h
  rw [tryFrom_digest hreference] at h
  obtain ⟨td, htd, h⟩ := except_bind_eq_ok.mp h
  cases htd
  obtain ⟨response, -, h⟩ := except_bind_eq_ok.mp h
  cases hstatus : response.status with
  | notFound => simp [hstatus] at h
  | other code => simp [hstatus] at h
  | ok =>
    rw [hstatus] at h
    obtain ⟨digest', hdigest, h⟩ := except_bind_eq_ok.mp h
    obtain ⟨data', -, h⟩ := except_bind_eq_ok.mp h
    obtain ⟨u, hcheck, h⟩ := except_bind_eq_ok.mp h
    cases h
    unfold manifestDigest at hdigest
    cases hparse : Digest.parse format.wellFormed text with
    | none => simp [hparse] at hdigest
    | some d =>
      simp only [hparse] at hdigest
      cases hdigest
      exact ⟨d, rfl, rfl, checkDataMatchesDigest_ok (mapError_eq_ok.mp hcheck)⟩

theorem getImageManifest_names {reference : Reference} {text : List Char} {response : ImageManifestResponse}
    (hreference : reference.digest = some text)
    (h : getImageManifest format sha256 registry reference = .ok (some response)) :
    ∃ d, Digest.parse format.wellFormed text = some d ∧ Names sha256 d response.data := by
  unfold getImageManifest at h
  obtain ⟨r, hr, h⟩ := except_bind_eq_ok.mp h
  cases r with
  | none => cases h
  | some r =>
    obtain ⟨contentType, digest, data⟩ := r
    simp only at h
    split_ifs at h
    cases h
    obtain ⟨d, hparse, -, hnames⟩ := getManifest_names hreference hr
    exact ⟨d, hparse, hnames⟩

theorem getImageConfiguration_matches {descriptor : Descriptor} {data : Bytes}
    (h : getImageConfiguration sha256 registry descriptor = .ok (some data)) :
    Matches sha256 descriptor data := by
  unfold getImageConfiguration at h
  obtain ⟨response, -, h⟩ := except_bind_eq_ok.mp h
  cases hstatus : response.status with
  | notFound => simp [hstatus] at h
  | other code => simp [hstatus] at h
  | ok =>
    rw [hstatus] at h
    obtain ⟨data', -, h⟩ := except_bind_eq_ok.mp h
    obtain ⟨u, hcheck, h⟩ := except_bind_eq_ok.mp h
    cases h
    obtain ⟨hsize, hnames⟩ := checkDataMatchesDescriptor_ok (mapError_eq_ok.mp hcheck)
    exact ⟨hsize, hnames⟩

/-- A value for a digest is packed from a manifest with that digest and from
the configuration that the manifest names. -/
theorem retreive_built_from {reference : Reference} {text : List Char} {packed : Packed}
    (hreference : reference.digest = some text)
    (h : retreiveManifestAndConfiguration format sha256 registry reference = .ok packed) :
    ∃ digest m manifest c configuration, digest.text = text ∧ Names sha256 digest m ∧
      format.manifest m = some manifest ∧ Matches sha256 (format.config manifest) c ∧
      format.configuration c = some configuration ∧
      format.pack digest manifest configuration = some packed := by
  unfold retreiveManifestAndConfiguration at h
  obtain ⟨text', htext, h⟩ := except_bind_eq_ok.mp h
  obtain rfl : text = text' := Option.some.inj (hreference.symm.trans (found_eq_ok.mp htext))
  obtain ⟨digest, hdigest, h⟩ := except_bind_eq_ok.mp h
  obtain ⟨response, hresponse, h⟩ := except_bind_eq_ok.mp h
  obtain ⟨manifestRes, hfound, h⟩ := except_bind_eq_ok.mp h
  obtain ⟨manifest, hmanifest, h⟩ := except_bind_eq_ok.mp h
  obtain ⟨answer, hanswer, h⟩ := except_bind_eq_ok.mp h
  obtain ⟨c, hc, h⟩ := except_bind_eq_ok.mp h
  obtain ⟨configuration, hconfiguration, hpack⟩ := except_bind_eq_ok.mp h
  rw [found_eq_ok] at hdigest hfound hmanifest hc hconfiguration hpack
  subst hfound hc
  obtain ⟨d, hparse, hnames⟩ := getImageManifest_names hreference (mapError_eq_ok.mp hresponse)
  obtain rfl : digest = d := Option.some.inj (hdigest.symm.trans hparse)
  exact ⟨digest, manifestRes.data, manifest, c, configuration, text_of_parse hdigest, hnames, hmanifest,
    getImageConfiguration_matches (mapError_eq_ok.mp hanswer), hconfiguration, hpack⟩

end Manifests

/-- A file that has got the name of a key, and a value that has got a digest as
its key, come from the data that the key names, whatever the registry sends and
wherever the run stops. -/
theorem content_addressed {Manifest Configuration Packed : Type}
    (format : OciFormat Manifest Configuration Packed) (sha256 : Bytes → Bytes) (registry : Registry) :
    (∀ (descriptor : Descriptor) (key : BlobKey) (received : Bool) (fs : Fs Name) (env : ℕ → Option ℕ),
      BlobKey.new descriptor.digest.text = some key →
      ∀ disk, (true, disk) ∈ (stateAfter (retreiveBlob sha256 registry descriptor key received
          (Session.start fs env))).history →
        ∃ h contents, key.text = sha256Name ++ ':' :: h ∧ disk.read key.asPath = some contents ∧
          contents.length = descriptor.size ∧ Utf8.encode h = lowerHex (sha256 contents)) ∧
    ∀ (reference : Reference) (d : List Char) (packed : Packed),
      retreiveManifestAndConfiguration format sha256 registry (reference.cloneWithDigest d) = .ok packed →
      ∃ h m manifest c configuration, d = sha256Name ++ ':' :: h ∧ Utf8.encode h = lowerHex (sha256 m) ∧
        format.manifest m = some manifest ∧ c.length = (format.config manifest).size ∧
        (format.config manifest).digest.algorithm = sha256Name ∧
        Utf8.encode (format.config manifest).digest.digest = lowerHex (sha256 c) ∧
        format.configuration c = some configuration ∧
        format.pack ⟨sha256Name, h⟩ manifest configuration = some packed := by
  constructor
  · intro descriptor key received fs env hkey disk hdisk
    have hs := Publishing.quiet_start fs env
    rcases retreiveBlob_outcome sha256 registry descriptor key received hs with
      hquiet | hshown
    · exact absurd (hquiet.2 _ hdisk) (by simp)
    · obtain ⟨x, ⟨rfl, hmatches⟩, hread⟩ := hshown.all disk hdisk
      refine ⟨descriptor.digest.digest, _, ?_, hread, hmatches.size, hmatches.names.2⟩
      rw [← hmatches.names.1]
      unfold BlobKey.new at hkey
      split_ifs at hkey
      cases hkey
      rfl
  · intro reference d packed h
    obtain ⟨⟨algorithm, digest⟩, m, manifest, c, configuration, rfl, ⟨rfl, hnames⟩, hmanifest, hmatches,
      hconfiguration, hpack⟩ := retreive_built_from
        (rfl : (reference.cloneWithDigest d).digest = some d) h
    exact ⟨digest, m, manifest, c, configuration, rfl, hnames, hmanifest, hmatches.size,
      hmatches.names.1, hmatches.names.2, hconfiguration, hpack⟩

/-- A checksum in place of the hash: the sum of the bytes and their number. -/
def checksum (bs : Bytes) : Bytes := [bs.foldl (· + ·) 0, UInt8.ofNat bs.length]

def sampleDescriptor : Descriptor := ⟨⟨sha256Name, ['0', '6', '0', '3']⟩, 3⟩

def sampleKey : BlobKey := ⟨sampleDescriptor.digest.text, by decide⟩

def sampleRegistry : Registry := fun _ =>
  .ok ⟨.ok, ociImageManifestV1, none, [[1], [2, 3]], false⟩

def sampleFormat : OciFormat Bytes Bytes (Digest × Bytes × Bytes) :=
  ⟨fun _ _ => true, some, some, fun _ => sampleDescriptor, fun d m c => some (d, m, c)⟩

def emptyDisk : Fs Name := ⟨fun _ => none, fun _ => [], 0⟩

theorem content_addressed_small :
    BlobKey.new sampleDescriptor.digest.text = some sampleKey ∧
    (∃ disk, (true, disk) ∈ (stateAfter (retreiveBlob checksum sampleRegistry sampleDescriptor
        sampleKey true (Session.start emptyDisk fun _ => none))).history ∧
      ∃ h contents, sampleKey.text = sha256Name ++ ':' :: h ∧ disk.read sampleKey.asPath = some contents ∧
        contents.length = 3 ∧ Utf8.encode h = lowerHex (checksum contents)) ∧
    ∃ h m manifest c configuration, sampleKey.text = sha256Name ++ ':' :: h ∧
      Utf8.encode h = lowerHex (checksum m) ∧ sampleFormat.manifest m = some manifest ∧ c.length = 3 ∧
      sampleDescriptor.digest.algorithm = sha256Name ∧
      Utf8.encode sampleDescriptor.digest.digest = lowerHex (checksum c) ∧
      sampleFormat.configuration c = some configuration ∧
      sampleFormat.pack ⟨sha256Name, h⟩ manifest configuration =
        some (⟨sha256Name, ['0', '6', '0', '3']⟩, [1, 2, 3], [1, 2, 3]) := by
  have hall := content_addressed sampleFormat checksum sampleRegistry
  have hkey : BlobKey.new sampleDescriptor.digest.text = some sampleKey := by decide
  have hseen : (stateAfter (retreiveBlob checksum sampleRegistry sampleDescriptor
      sampleKey true (Session.start emptyDisk fun _ => none))).history.any (fun r => r.1) = true := by
    decide +kernel
  have hvalue : retreiveManifestAndConfiguration sampleFormat checksum sampleRegistry
      (Reference.cloneWithDigest ⟨none, none⟩ sampleKey.text) =
        .ok (⟨sha256Name, ['0', '6', '0', '3']⟩, [1, 2, 3], [1, 2, 3]) := by decide +kernel
  obtain ⟨⟨flag, disk⟩, hmem, rfl⟩ := List.any_eq_true.mp hseen
  exact ⟨hkey, ⟨disk, hmem, hall.1 _ _ _ _ _ hkey disk hmem⟩, hall.2 _ _ _ hvalue⟩

end ProgramExplorer.Downloads
