import ProgramExplorer.Downloads
import ProgramExplorer.MemoCache
import ProgramExplorer.Ratelimits

/-!
# The caching client

An image is looked up in two steps. The text of a reference leads to the digest
of the manifest for a platform, and the digest to the manifest and the
configuration packed together. Each step has a cache in front of it: the first
by the text of the reference, without the platform, and the second by the
digest, without the repository. The client below remembers the rate limits of
the registries and sends nothing to one whose limit is still running.
-/

set_option autoImplicit false

namespace ProgramExplorer.OcidistCache
open ByteStrings Digests Downloads InsertionMap MemoCache Ratelimits StateRules

section Index

inductive Arch where
  | amd64
  | other (name : List Char)
  deriving DecidableEq

inductive Os where
  | linux
  | other (name : List Char)
  deriving DecidableEq

structure Platform where
  architecture : Arch
  os : Os
  deriving DecidableEq

structure ImageReference extends Reference where
  registry : List Char
  repository : List Char
  deriving DecidableEq

def ImageReference.resolveRegistry (reference : ImageReference) : List Char :=
  if reference.registry = "docker.io".toList then "index.docker.io".toList else reference.registry

def ImageReference.cloneWithDigest (reference : ImageReference) (digest : List Char) : ImageReference :=
  { reference with toReference := reference.toReference.cloneWithDigest digest }

def joinWith (c : Char) (front part : List Char) : List Char :=
  if front = [] then part else front ++ c :: part

def ImageReference.toText (reference : ImageReference) : List Char :=
  let s := reference.registry
  let s := if reference.repository = [] then s else joinWith '/' s reference.repository
  let s := reference.tag.elim s (joinWith ':' s)
  reference.digest.elim s (joinWith '@' s)

inductive Accept where
  | imageManifest
  | imageIndex
  deriving DecidableEq

/-- What comes of every request that is sent. The header goes with those for
manifests; `reset` is the header of an answer that is a rate limit. -/
structure Registries where
  manifest : List Char → List Char → Accept → TagOrDigest → Except ClientError Response
  blob : List Char → List Char → Digest → Except ClientError Response
  reset : List Char → List Char → Downloads.Request → Option UInt64 := fun _ _ _ => none

def Registries.answering (registries : Registries) (reference : ImageReference) (accept : Accept) : Registry
  | .manifest td => registries.manifest reference.resolveRegistry reference.repository accept td
  | .blob digest => registries.blob reference.resolveRegistry reference.repository digest

/-- An index is a list of descriptors, each with its platform if it has one; a
manifest may give the platform of its configuration. -/
structure IndexFormat (Manifest Configuration Packed : Type)
    extends OciFormat Manifest Configuration Packed where
  index : Bytes → Option (List (Descriptor × Option Platform))
  configPlatform : Manifest → Option Platform

def ociImageIndexV1 : List Char := "application/vnd.oci.image.index.v1+json".toList

def dockerImageManifestListV2 : List Char :=
  "application/vnd.docker.distribution.manifest.list.v2+json".toList

variable {Manifest Configuration Packed : Type}
variable (format : IndexFormat Manifest Configuration Packed) (sha256 : Bytes → Bytes) (registries : Registries)

def descriptorFromIndex (data : Bytes) (arch : Arch) (os : Os) : Except ClientError (Option Descriptor) := do
  let index ← okOr (format.index data) .ociSpecError
  match index.find? fun entry => entry.2.elim false fun p => p.architecture = arch ∧ p.os = os with
  | some (descriptor, _) => .ok (some descriptor)
  | none => .error .noMatchingManifest

/-- The registry has sent a manifest for an index. One that does not say its
platform is refused only if neither the architecture nor the system is the
usual one. -/
def descriptorOfManifest (digest : Option Digest) (data : Bytes) (arch : Arch) (os : Os) :
    Except ClientError (Option Descriptor) := do
  let digest := digest.getD (digestFromData sha256 data)
  let manifest ← okOr (format.manifest data) .ociSpecError
  match format.configPlatform manifest with
  | some platform =>
    if platform.architecture ≠ arch ∨ platform.os ≠ os then .error .noMatchingManifest
    else .ok (some ⟨digest, data.length⟩)
  | none =>
    if arch ≠ .amd64 ∧ os ≠ .linux then .error .noMatchingManifest
    else .ok (some ⟨digest, data.length⟩)

def getMatchingDescriptorFromIndex (reference : ImageReference) (arch : Arch) (os : Os) :
    Except ClientError (Option Descriptor) := do
  match ← getManifest format.toOciFormat sha256 (registries.answering reference .imageIndex)
      reference.toReference with
  | none => .ok none
  | some (contentType, digest, data) =>
    if contentType = ociImageIndexV1 ∨ contentType = dockerImageManifestListV2 then
      descriptorFromIndex format data arch os
    else if contentType = ociImageManifestV1 ∨ contentType = dockerImageManifestV2 then
      descriptorOfManifest format sha256 digest data arch os
    else .error (.badContentType contentType)

end Index

section Client

structure Call where
  reference : ImageReference
  arch : Arch
  os : Os
  deriving DecidableEq

structure Client (Packed : Type) where
  refCache : Cache (List Char) (List Char)
  manifestCache : Cache (List Char) Packed

variable {Manifest Configuration Packed : Type}
variable (format : IndexFormat Manifest Configuration Packed) (sha256 : Bytes → Bytes) (registries : Registries)

def Client.empty : Client Packed := ⟨[], []⟩

def retreiveRef (call : Call) : Except Error (List Char) := do
  let descriptor ← fromClient
    (getMatchingDescriptorFromIndex format sha256 registries call.reference call.arch call.os)
  let descriptor ← found .manifestNotFound descriptor
  .ok descriptor.digest.text

/-- `retreive_manifest_and_configuration` for a reference that has got a
digest. -/
def fetch (reference : ImageReference) (digest : List Char) : Except Error Packed :=
  let reference := reference.cloneWithDigest digest
  retreiveManifestAndConfiguration format.toOciFormat sha256
    (registries.answering reference .imageManifest) reference.toReference

def refEntry (key : List Char) (init : Except Error (List Char)) :
    EStateM Error (Client Packed) (List Char) :=
  within Client.refCache (fun cache client => { client with refCache := cache }) (orTryInsertWith key init)

def manifestEntry (key : List Char) (init : Except Error Packed) : EStateM Error (Client Packed) Packed :=
  within Client.manifestCache (fun cache client => { client with manifestCache := cache })
    (orTryInsertWith key init)

def digestString (call : Call) : EStateM Error (Client Packed) (List Char) :=
  match call.reference.digest with
  | some text => do
    let digest ← check (found .badDigest (Digest.parse format.wellFormed text))
    pure digest.text
  | none => refEntry call.reference.toText (retreiveRef format sha256 registries call)

def getImageManifestAndConfiguration (call : Call) : EStateM Error (Client Packed) Packed := do
  let digest ← digestString format sha256 registries call
  manifestEntry digest (fetch format sha256 registries call.reference digest)

def answer (client : Client Packed) (call : Call) : Except Error Packed :=
  result (getImageManifestAndConfiguration format sha256 registries call client)

end Client

section Limits

abbrev Limits := List Char → Option ℕ

/-- Nothing is sent to a registry whose limit is still running. -/
def Registries.under (registries : Registries) (limits : Limits) (now : ℕ) : Registries where
  manifest domain repository accept td :=
    if readAndCompare now (limits domain) = .exceeded then .error .ratelimitExceeded
    else registries.manifest domain repository accept td
  blob domain repository digest :=
    if readAndCompare now (limits domain) = .exceeded then .error .ratelimitExceeded
    else registries.blob domain repository digest
  reset := registries.reset

structure Setting (Manifest Configuration Packed : Type) where
  format : IndexFormat Manifest Configuration Packed
  sha256 : Bytes → Bytes
  registries : Registries
  endTime : ℕ → Option UInt64 → ℕ

structure LimitedClient (Packed : Type) extends Client Packed where
  ratelimit : Limits

def LimitedClient.empty {Packed : Type} : LimitedClient Packed := ⟨.empty, fun _ => none⟩

inductive Event where
  | call (now : ℕ) (call : Call)
  | evictRef (key : List Char)
  | evictManifest (key : List Char)
  deriving DecidableEq

namespace Setting

variable {Manifest Configuration Packed : Type} (w : Setting Manifest Configuration Packed)

def under (limits : Limits) (now : ℕ) : Setting Manifest Configuration Packed :=
  { w with registries := w.registries.under limits now }

def digestString (call : Call) : EStateM Error (Client Packed) (List Char) :=
  OcidistCache.digestString w.format w.sha256 w.registries call

def fetch (reference : ImageReference) (digest : List Char) : Except Error Packed :=
  OcidistCache.fetch w.format w.sha256 w.registries reference digest

def run (call : Call) : EStateM Error (Client Packed) Packed :=
  getImageManifestAndConfiguration w.format w.sha256 w.registries call

def lookups (reference : ImageReference) : List (Accept × Downloads.Request) :=
  match TagOrDigest.tryFrom reference.toReference with
  | .ok td => [(.imageIndex, .manifest td)]
  | .error _ => []

/-- The manifest, and the configuration if there is a manifest that names it. -/
def fetches (reference : ImageReference) (d : List Char) : List (Accept × Downloads.Request) :=
  match Digest.parse w.format.wellFormed d with
  | none => []
  | some _ =>
    (.imageManifest, .manifest (.digest d)) ::
      match getImageManifest w.format.toOciFormat w.sha256
          (w.registries.answering reference .imageManifest)
          (reference.cloneWithDigest d).toReference with
      | .ok (some response) => ((w.format.manifest response.data).map fun manifest =>
          (.imageManifest, .blob (w.format.config manifest).digest)).toList
      | _ => []

/-- What a call sends: only for what is not in the caches. -/
def requests (client : Client Packed) (call : Call) : List (Accept × Downloads.Request) :=
  (if call.reference.digest = none ∧ get client.refCache call.reference.toText = none then
    lookups call.reference else []) ++
  match result (w.digestString call client) with
  | .ok d => if get client.manifestCache d = none then w.fetches call.reference d else []
  | .error _ => []

def limit (reference : ImageReference) (request : Accept × Downloads.Request) :
    Option (Option UInt64) :=
  match w.registries.answering reference request.1 request.2 with
  | .error .ratelimitExceeded =>
    some (w.registries.reset reference.resolveRegistry reference.repository request.2)
  | _ => none

/-- A limit that is over has been removed before the request is sent. -/
def handleRatelimit (now : ℕ) (reference : ImageReference) (limits : Limits)
    (request : Accept × Downloads.Request) : Limits :=
  Function.update limits reference.resolveRegistry ((w.limit reference request).map (w.endTime now))

def limitsAfter (now : ℕ) (call : Call) (s : LimitedClient Packed) : Limits :=
  if readAndCompare now (s.ratelimit call.reference.resolveRegistry) = .exceeded then s.ratelimit
  else (w.requests s.toClient call).foldl (w.handleRatelimit now call.reference) s.ratelimit

def serve (now : ℕ) (call : Call) : EStateM Error (LimitedClient Packed) Packed := fun s =>
  match (w.under s.ratelimit now).run call s.toClient with
  | .ok p client => .ok p ⟨client, w.limitsAfter now call s⟩
  | .error e client => .error e ⟨client, w.limitsAfter now call s⟩

def step (s : LimitedClient Packed) : Event → LimitedClient Packed
  | .call now call => stateAfter (w.serve now call s)
  | .evictRef key => { s with refCache := evict key s.refCache }
  | .evictManifest key => { s with manifestCache := evict key s.manifestCache }

def after (events : List Event) : LimitedClient Packed := events.foldl w.step .empty

def answer (s : LimitedClient Packed) (now : ℕ) (call : Call) : Except Error Packed :=
  result (w.serve now call s)

end Setting

end Limits

section Direct

variable {Manifest Configuration Packed : Type} {w : Setting Manifest Configuration Packed}
variable {call : Call} {client client' : Client Packed} {d : List Char} {limits : Limits} {now : ℕ}

def Setting.resolve (w : Setting Manifest Configuration Packed) (call : Call) :
    Except Error (List Char) :=
  match call.reference.digest with
  | some text => (found .badDigest (Digest.parse w.format.wellFormed text)).map Digest.text
  | none => retreiveRef w.format w.sha256 w.registries call

/-- What the registries hold for a call. -/
def Setting.direct (w : Setting Manifest Configuration Packed) (call : Call) : Except Error Packed :=
  w.resolve call >>= w.fetch call.reference

def limitError : Error := .client .ratelimitExceeded

def Limits.Blocks (limits : Limits) (now : ℕ) (reference : ImageReference) : Prop :=
  readAndCompare now (limits reference.resolveRegistry) = .exceeded

theorem answering_under (reference : ImageReference) (accept : Accept) :
    (w.registries.under limits now).answering reference accept =
      if readAndCompare now (limits reference.resolveRegistry) = .exceeded then
        fun _ => .error .ratelimitExceeded
      else w.registries.answering reference accept := by
  funext request
  cases request <;> simp only [Registries.answering, Registries.under] <;> split_ifs <;> rfl

/-- A request that the limit stops fails with it; nothing else changes. -/
theorem resolve_under : (w.under limits now).resolve call = w.resolve call ∨
    limits.Blocks now call.reference ∧ (w.under limits now).resolve call = .error limitError := by
  unfold Setting.resolve Setting.under
  cases call.reference.digest with
  | some text => exact .inl rfl
  | none =>
    dsimp only
    unfold retreiveRef getMatchingDescriptorFromIndex
    rw [answering_under]
    split_ifs with hb
    · unfold getManifest
      cases TagOrDigest.tryFrom call.reference.toReference with
      | error e => exact .inl rfl
      | ok td => exact .inr ⟨hb, rfl⟩
    · exact .inl rfl

theorem fetch_under (reference : ImageReference) (d : List Char) :
    (w.under limits now).fetch reference d = w.fetch reference d ∨
      limits.Blocks now reference ∧ (w.under limits now).fetch reference d = .error limitError := by
  unfold Setting.fetch Setting.under fetch retreiveManifestAndConfiguration
  dsimp only
  rw [answering_under]
  split_ifs with hb
  · have hdigest : (reference.cloneWithDigest d).digest = some d := rfl
    cases hparse : Digest.parse w.format.wellFormed d with
    | none =>
      refine .inl ?_
      simp only [hdigest, hparse, found, bind, Except.bind]
    | some digest =>
      refine .inr ⟨hb, ?_⟩
      simp only [hdigest, hparse, found, bind, Except.bind]
      rfl
  · exact .inl rfl

theorem digestString_eq (w : Setting Manifest Configuration Packed) (call : Call) :
    w.digestString call = if call.reference.digest = none then
      refEntry call.reference.toText (w.resolve call) else check (w.resolve call) := by
  unfold Setting.digestString digestString Setting.resolve
  cases call.reference.digest with
  | none => rfl
  | some text =>
    funext client
    dsimp only
    cases Digest.parse w.format.wellFormed text <;> rfl

theorem run_eq (w : Setting Manifest Configuration Packed) (call : Call) :
    w.run call = w.digestString call >>= fun d => manifestEntry d (w.fetch call.reference d) := rfl

theorem run_under (h : ¬ limits.Blocks now call.reference) : (w.under limits now).run call = w.run call := by
  have hresolve : (w.under limits now).resolve call = w.resolve call :=
    resolve_under.resolve_right fun hb => h hb.1
  have hfetch : (w.under limits now).fetch call.reference = w.fetch call.reference :=
    funext fun d => (fetch_under call.reference d).resolve_right fun hb => h hb.1
  rw [run_eq, run_eq, digestString_eq, digestString_eq, hresolve, hfetch]

theorem answer_eq (s : LimitedClient Packed) (now : ℕ) (call : Call) :
    w.answer s now call = result ((w.under s.ratelimit now).run call s.toClient) := by
  unfold Setting.answer Setting.serve
  cases (w.under s.ratelimit now).run call s.toClient <;> rfl

theorem serve_toClient (s : LimitedClient Packed) (now : ℕ) (call : Call) :
    (stateAfter (w.serve now call s)).toClient =
      stateAfter ((w.under s.ratelimit now).run call s.toClient) := by
  unfold Setting.serve
  cases (w.under s.ratelimit now).run call s.toClient <;> rfl

theorem serve_ratelimit (s : LimitedClient Packed) (now : ℕ) (call : Call) :
    (stateAfter (w.serve now call s)).ratelimit = w.limitsAfter now call s := by
  unfold Setting.serve
  cases (w.under s.ratelimit now).run call s.toClient <;> rfl

theorem result_manifestEntry (client : Client Packed) (key : List Char) (init : Except Error Packed) :
    result (manifestEntry key init client) = (get client.manifestCache key).elim init .ok := by
  unfold manifestEntry within
  cases hget : get client.manifestCache key with
  | some p =>
    rw [orTryInsertWith_hit hget]
    rfl
  | none =>
    cases init with
    | ok p =>
      rw [orTryInsertWith_ok hget]
      rfl
    | error e =>
      rw [orTryInsertWith_error hget]
      rfl

theorem run_of_digest (h : w.digestString call client = .ok d client') :
    w.run call client = manifestEntry d (w.fetch call.reference d) client' := by
  rw [run_eq]
  change EStateM.bind _ _ _ = _
  rw [EStateM.bind, h]

theorem digestString_hit (hdigest : call.reference.digest = none)
    (h : get client.refCache call.reference.toText = some d) : w.digestString call client = .ok d client := by
  rw [digestString_eq, if_pos hdigest]
  simp only [refEntry, within]
  rw [orTryInsertWith_hit h]

theorem digestString_digest (hdigest : call.reference.digest ≠ none) (h : w.resolve call = .ok d) :
    w.digestString call client = .ok d client := by
  rw [digestString_eq, if_neg hdigest, h]
  rfl

theorem digestString_miss (hdigest : call.reference.digest = none)
    (hmiss : get client.refCache call.reference.toText = none) (h : w.resolve call = .ok d) :
    w.digestString call client =
      .ok d { client with refCache := InsertionMap.set call.reference.toText d client.refCache } := by
  rw [digestString_eq, if_pos hdigest, h]
  simp only [refEntry, within]
  rw [orTryInsertWith_ok hmiss]

theorem answer_empty (now : ℕ) (call : Call) : w.answer .empty now call = w.direct call := by
  have hfree : ¬ (LimitedClient.empty : LimitedClient Packed).ratelimit.Blocks now call.reference := by
    simp [LimitedClient.empty, Limits.Blocks, readAndCompare]
  rw [answer_eq, run_under hfree, Setting.direct, run_eq]
  change result (EStateM.bind _ _ _) = _
  rw [EStateM.bind, digestString_eq]
  cases hresolve : w.resolve call with
  | error e =>
    split_ifs
    · rfl
    · rfl
  | ok d =>
    split_ifs
    · exact result_manifestEntry _ _ _
    · exact result_manifestEntry _ _ _

end Direct

section Texts

/-- What the parser of references guarantees. -/
structure ImageReference.Parsed (reference : ImageReference) : Prop where
  registry : reference.registry ≠ [] ∧ '/' ∉ reference.registry
  repository : reference.repository ≠ [] ∧ ':' ∉ reference.repository

theorem toText_tagged {reference : ImageReference} (h : reference.Parsed)
    (hdigest : reference.digest = none) :
    reference.toText = reference.registry ++ '/' ::
      reference.tag.elim reference.repository (reference.repository ++ ':' :: ·) := by
  simp only [ImageReference.toText, joinWith, hdigest, h.repository.1, h.registry.1, if_false,
    Option.elim_none]
  cases reference.tag <;> simp [joinWith]

/-- References without a digest that read the same are the same. -/
theorem toText_inj {reference other : ImageReference} (h : reference.Parsed) (ho : other.Parsed)
    (hdigest : reference.digest = none) (hdigest' : other.digest = none)
    (he : reference.toText = other.toText) : reference = other := by
  rw [toText_tagged h hdigest, toText_tagged ho hdigest'] at he
  obtain ⟨hregistry, hrest⟩ := append_cons_inj h.registry.2 ho.registry.2 he
  obtain ⟨⟨tag, digest⟩, registry, repository⟩ := reference
  obtain ⟨⟨tag', digest'⟩, registry', repository'⟩ := other
  have hr := h.repository.2
  have hr' := ho.repository.2
  dsimp only at hdigest hdigest' hregistry hrest hr hr'
  subst hdigest hdigest' hregistry
  cases tag with
  | none =>
    cases tag' with
    | none =>
      cases hrest
      rfl
    | some tag' =>
      refine absurd ?_ hr
      rw [show repository = repository' ++ ':' :: tag' from hrest]
      simp
  | some tag =>
    cases tag' with
    | none =>
      refine absurd ?_ hr'
      rw [← show repository ++ ':' :: tag = repository' from hrest]
      simp
    | some tag' =>
      obtain ⟨rfl, rfl⟩ := append_cons_inj hr hr' hrest
      rfl

end Texts

section Transparency

variable {Manifest Configuration Packed Kind : Type} (w : Setting Manifest Configuration Packed)
variable (asked : Set Call) (kind : Error → Kind)

/-- The same image or the same kind of error. -/
def Same (x y : Except Error Packed) : Prop := x.mapError kind = y.mapError kind

namespace Setting

/-- A call for the same reference, on whatever platform, has this digest. -/
def Leads (call : Call) (d : List Char) : Prop :=
  ∃ other ∈ asked, other.reference = call.reference ∧ w.resolve other = .ok d

def Serves (d : List Char) (p : Packed) : Prop :=
  ∃ other ∈ asked, w.resolve other = .ok d ∧ w.fetch other.reference d = .ok p

structure Sound (client : Client Packed) : Prop where
  refs : Backed (fun text d => ∃ other ∈ asked, other.reference.digest = none ∧
    other.reference.toText = text ∧ w.resolve other = .ok d) client.refCache
  manifests : Backed (w.Serves asked) client.manifestCache

/-- As far as the answers are looked at, a reference stands for one image on
every platform, and a digest for one image in every repository. -/
structure Uniform : Prop where
  platforms : ∀ call ∈ asked, ∀ d, w.Leads asked call d →
    Same kind (w.fetch call.reference d) (w.direct call)
  repositories : ∀ call ∈ asked, ∀ d p, w.resolve call = .ok d → w.Serves asked d p →
    Same kind (w.fetch call.reference d) (.ok p)

def MaySend (call : Call) (request : Accept × Downloads.Request) : Prop :=
  request ∈ lookups call.reference ∨ ∃ d, w.Leads asked call d ∧ request ∈ w.fetches call.reference d

/-- No limit that a call of the history may have run into is still running. -/
def Over (events : List Event) (now : ℕ) (call : Call) : Prop :=
  ∀ time other, .call time other ∈ events →
    other.reference.resolveRegistry = call.reference.resolveRegistry →
    ∀ request, w.MaySend asked other request → ∀ reset, w.limit other.reference request = some reset →
      w.endTime time reset ≤ now

/-- Or the limit makes no difference: the call runs into one anyway, or it was
answered before and is still in the caches. -/
inductive Unlimited (events : List Event) (now : ℕ) (call : Call) : Prop
  | past (h : w.Over asked events now call)
  | limited (h : Same kind (w.direct call) (.error limitError))
  | kept {front back : List Event} {time : ℕ} {p : Packed}
      (hevents : events = front ++ .call time call :: back)
      (hover : w.Over asked front time call) (hgot : w.direct call = .ok p)
      (hback : ∀ event ∈ back, ∃ time other, event = .call time other)

end Setting

variable {w asked kind} {call : Call} {limits : Limits} {now : ℕ} {d : List Char}
variable (hparsed : ∀ call ∈ asked, call.reference.Parsed)

theorem foldl_handleRatelimit {reference : ImageReference} {requests : List (Accept × Downloads.Request)}
    {domain : List Char} {e : ℕ}
    (h : requests.foldl (w.handleRatelimit now reference) limits domain = some e) :
    limits domain = some e ∨ domain = reference.resolveRegistry ∧ ∃ request ∈ requests, ∃ reset,
      w.limit reference request = some reset ∧ e = w.endTime now reset := by
  induction requests generalizing limits with
  | nil => exact .inl h
  | cons request requests ih =>
    rcases ih h with hlimits | ⟨hdomain, other, hother, hrest⟩
    · unfold Setting.handleRatelimit at hlimits
      by_cases hd : domain = reference.resolveRegistry
      · subst hd
        rw [Function.update_self] at hlimits
        obtain ⟨reset, hreset, he⟩ := Option.map_eq_some_iff.mp hlimits
        exact .inr ⟨rfl, request, by simp, reset, hreset, he.symm⟩
      · rw [Function.update_of_ne hd] at hlimits
        exact .inl hlimits
    · exact .inr ⟨hdomain, other, by simp [hother], hrest⟩

section Runs
include hparsed

theorem triple_digestString (hcall : call ∈ asked) :
    Triple (w.Sound asked) ((w.under limits now).digestString call)
      (fun d client => w.Sound asked client ∧ w.Leads asked call d)
      (fun e client => w.Sound asked client ∧
        (w.resolve call = .error e ∨ limits.Blocks now call.reference ∧ e = limitError)) := by
  have hok : ∀ d, (w.under limits now).resolve call = .ok d → w.resolve call = .ok d := by
    intro d hd
    rcases @resolve_under _ _ _ w call limits now with he | ⟨-, he⟩
    · exact he ▸ hd
    · cases hd.symm.trans he
  have herror : ∀ e, (w.under limits now).resolve call = .error e →
      w.resolve call = .error e ∨ limits.Blocks now call.reference ∧ e = limitError := by
    intro e hfail
    rcases @resolve_under _ _ _ w call limits now with he | ⟨hb, he⟩
    · exact .inl (he ▸ hfail)
    · exact .inr ⟨hb, by cases hfail.symm.trans he; rfl⟩
  rw [digestString_eq]
  split_ifs with hdigest
  · refine triple_within (fun _ h => h.refs) (fun _ _ h hrefs => ⟨hrefs, h.manifests⟩) ?_
    refine triple_mono_error (triple_conseq (triple_orTryInsertWith ?_) (fun _ h => h) ?_) ?_
    · exact fun d hd => ⟨call, hcall, hdigest, rfl, hok d hd⟩
    · rintro d cache ⟨hcache, other, hother, hnone, htext, hd⟩
      exact ⟨hcache, other, hother,
        toText_inj (hparsed other hother) (hparsed call hcall) hnone hdigest htext, hd⟩
    · rintro e cache ⟨hcache, he⟩
      exact ⟨hcache, herror e he⟩
  · refine triple_conseq (triple_check _ fun e client he hclient => ⟨hclient, herror e he⟩) (fun _ h => h) ?_
    rintro d client ⟨hclient, hd⟩
    exact ⟨hclient, call, hcall, rfl, hok d hd⟩

theorem triple_run (limits : Limits) (now : ℕ) (hcall : call ∈ asked) :
    Triple (w.Sound asked) ((w.under limits now).run call)
      (fun p client => w.Sound asked client ∧ ∃ d, w.Leads asked call d ∧ w.Serves asked d p)
      (fun e client => w.Sound asked client ∧ (w.resolve call = .error e ∨
        (∃ d, w.Leads asked call d ∧ w.fetch call.reference d = .error e) ∨
        limits.Blocks now call.reference ∧ e = limitError)) := by
  rw [run_eq]
  refine triple_bind (triple_mono_error (triple_digestString hparsed hcall) ?_) fun d => ?_
  · rintro e client ⟨hclient, he | hb⟩
    · exact ⟨hclient, .inl he⟩
    · exact ⟨hclient, .inr (.inr hb)⟩
  · rintro client ⟨hclient, hlead⟩
    have hentry : Triple (w.Sound asked) (manifestEntry d ((w.under limits now).fetch call.reference d))
        (fun p client => w.Sound asked client ∧ w.Serves asked d p)
        (fun e client => w.Sound asked client ∧ (w.under limits now).fetch call.reference d = .error e) := by
      refine triple_within (fun _ h => h.manifests) (fun _ _ h hmanifests => ⟨h.refs, hmanifests⟩)
        (triple_orTryInsertWith fun p hp => ?_)
      obtain ⟨other, hother, href, hd⟩ := hlead
      refine ⟨other, hother, hd, ?_⟩
      rw [href]
      rcases @fetch_under _ _ _ w limits now call.reference d with he | ⟨-, he⟩
      · exact he ▸ hp
      · cases hp.symm.trans he
    have hrun := hentry client hclient
    cases hcase : manifestEntry d ((w.under limits now).fetch call.reference d) client with
    | ok p client' =>
      rw [hcase] at hrun
      exact ⟨hrun.1, d, hlead, hrun.2⟩
    | error e client' =>
      rw [hcase] at hrun
      refine ⟨hrun.1, .inr ?_⟩
      rcases @fetch_under _ _ _ w limits now call.reference d with he | ⟨hb, he⟩
      · exact .inl ⟨d, hlead, he ▸ hrun.2⟩
      · exact .inr ⟨hb, by cases hrun.2.symm.trans he; rfl⟩

theorem sound_after {events : List Event} (hevents : ∀ time call, .call time call ∈ events → call ∈ asked) :
    w.Sound asked (w.after events).toClient := by
  induction events using List.reverseRecOn with
  | nil => exact ⟨backed_nil, backed_nil⟩
  | append_singleton events event ih =>
    have ih := ih fun time call h => hevents time call (List.mem_append_left _ h)
    rw [Setting.after, List.foldl_append]
    cases event with
    | evictRef key => exact ⟨ih.refs.evict key, ih.manifests⟩
    | evictManifest key => exact ⟨ih.refs, ih.manifests.evict key⟩
    | call time call =>
      have hrun := triple_run hparsed (w.after events).ratelimit time (hevents time call (by simp)) _ ih
      change w.Sound asked (stateAfter (w.serve time call (w.after events))).toClient
      rw [serve_toClient]
      cases hcase : (w.under (w.after events).ratelimit time).run call (w.after events).toClient with
      | ok p client =>
        rw [hcase] at hrun
        exact hrun.1
      | error e client =>
        rw [hcase] at hrun
        exact hrun.1

/-- One call in a sound client: as the registries have it, or the limit. -/
theorem answer_sound (huniform : w.Uniform asked kind) (hcall : call ∈ asked) {s : LimitedClient Packed}
    (hs : w.Sound asked s.toClient) :
    Same kind (w.answer s now call) (w.direct call) ∨
      s.ratelimit.Blocks now call.reference ∧ w.answer s now call = .error limitError := by
  have hrun := triple_run hparsed s.ratelimit now hcall s.toClient hs
  rw [answer_eq]
  cases hcase : (w.under s.ratelimit now).run call s.toClient with
  | ok p client =>
    rw [hcase] at hrun
    obtain ⟨-, d, hlead, hserves⟩ := hrun
    have hplatforms := huniform.platforms call hcall d hlead
    obtain ⟨other, hother, href, hd⟩ := hlead
    have hp := huniform.repositories other hother d p hd hserves
    rw [href] at hp
    exact .inl (hp.symm.trans hplatforms)
  | error e client =>
    rw [hcase] at hrun
    rcases hrun.2 with he | ⟨d, hlead, he⟩ | ⟨hb, rfl⟩
    · refine .inl ?_
      rw [Setting.direct, he]
      rfl
    · have hsame := huniform.platforms call hcall d hlead
      rw [he] at hsame
      exact .inl hsame
    · exact .inr ⟨hb, rfl⟩

theorem maySend_of_requests (hcall : call ∈ asked) {client : Client Packed} (hclient : w.Sound asked client)
    {request : Accept × Downloads.Request} (h : request ∈ w.requests client call) :
    w.MaySend asked call request := by
  have hrun := @triple_digestString _ _ _ w asked call (fun _ => none) 0 hparsed hcall client hclient
  rw [show w.under (fun _ => none) 0 = w from rfl] at hrun
  unfold Setting.requests at h
  rcases List.mem_append.mp h with hlookup | hfetch
  · split_ifs at hlookup
    · exact .inl hlookup
    · cases hlookup
  · cases hd : w.digestString call client with
    | error e client' =>
      rw [hd] at hfetch
      cases hfetch
    | ok d client' =>
      rw [hd] at hfetch hrun
      simp only [result] at hfetch
      split_ifs at hfetch
      · exact .inr ⟨d, hrun.2, hfetch⟩
      · cases hfetch

theorem limit_owed {events : List Event} (hevents : ∀ time call, .call time call ∈ events → call ∈ asked)
    {domain : List Char} {e : ℕ} (h : (w.after events).ratelimit domain = some e) :
    ∃ time other, .call time other ∈ events ∧ other.reference.resolveRegistry = domain ∧
      ∃ request, w.MaySend asked other request ∧ ∃ reset,
        w.limit other.reference request = some reset ∧ e = w.endTime time reset := by
  induction events using List.reverseRecOn with
  | nil => cases h
  | append_singleton events event ih =>
    have hfront : ∀ time call, .call time call ∈ events → call ∈ asked :=
      fun time call hmem => hevents time call (List.mem_append_left _ hmem)
    have ih (h : (w.after events).ratelimit domain = some e) := ih hfront h
    rw [Setting.after, List.foldl_append] at h
    have hold (h : (w.after events).ratelimit domain = some e) :
        ∃ time other, .call time other ∈ events ++ [event] ∧ other.reference.resolveRegistry = domain ∧
          ∃ request, w.MaySend asked other request ∧ ∃ reset,
            w.limit other.reference request = some reset ∧ e = w.endTime time reset := by
      obtain ⟨time, other, hmem, hrest⟩ := ih h
      exact ⟨time, other, List.mem_append_left _ hmem, hrest⟩
    cases event with
    | evictRef key => exact hold h
    | evictManifest key => exact hold h
    | call time call =>
      replace h : w.limitsAfter time call (w.after events) domain = some e := serve_ratelimit .. ▸ h
      unfold Setting.limitsAfter at h
      split_ifs at h
      · exact hold h
      · rcases foldl_handleRatelimit h with hkept | ⟨rfl, request, hrequest, hreset⟩
        · exact hold hkept
        · have hmay := maySend_of_requests hparsed (hevents time call (by simp))
            (sound_after hparsed hfront) hrequest
          exact ⟨time, call, by simp, rfl, request, hmay, hreset⟩

theorem not_blocked {events : List Event} (hevents : ∀ time call, .call time call ∈ events → call ∈ asked)
    (hover : w.Over asked events now call) : ¬ (w.after events).ratelimit.Blocks now call.reference := by
  intro hb
  obtain ⟨e, he, hlt⟩ := readAndCompare_exceeded hb
  obtain ⟨time, other, hmem, hdomain, request, hmay, reset, hreset, rfl⟩ := limit_owed hparsed hevents he
  exact absurd (hover time other hmem hdomain request hmay reset hreset) (Nat.not_le.mpr hlt)

end Runs

section Kept

/-- The caches have what the call asks for. -/
def Setting.Stored (w : Setting Manifest Configuration Packed) (call : Call) (p : Packed)
    (client : Client Packed) : Prop :=
  ∃ d, (if call.reference.digest = none then get client.refCache call.reference.toText = some d
    else w.resolve call = .ok d) ∧ get client.manifestCache d = some p

structure Grows (client client' : Client Packed) : Prop where
  refs : Extends client.refCache client'.refCache
  manifests : Extends client.manifestCache client'.manifestCache

theorem resolve_under_digest (h : call.reference.digest ≠ none) :
    (w.under limits now).resolve call = w.resolve call := by
  unfold Setting.resolve Setting.under
  cases hdigest : call.reference.digest with
  | none => exact absurd hdigest h
  | some text => rfl

theorem run_of_stored {client : Client Packed} {p : Packed} (h : w.Stored call p client) :
    (w.under limits now).run call client = .ok p client := by
  obtain ⟨d, hd, hp⟩ := h
  have hdigest : (w.under limits now).digestString call client = .ok d client := by
    split_ifs at hd with hnone
    · exact digestString_hit hnone hd
    · exact digestString_digest hnone ((resolve_under_digest hnone).trans hd)
  rw [run_of_digest hdigest]
  exact within_ok (orTryInsertWith_hit hp _)

theorem stored_of_run {client client' : Client Packed} {p : Packed}
    (h : (w.under limits now).run call client = .ok p client') : w.Stored call p client' := by
  rw [run_eq] at h
  obtain ⟨d, client₁, hdigest, hentry⟩ := bind_eq_ok.mp h
  obtain ⟨cache, hcache, rfl⟩ := within_eq_ok.mp hentry
  refine ⟨d, ?_, get_of_orTryInsertWith hcache⟩
  rw [digestString_eq] at hdigest
  split_ifs at hdigest ⊢ with hnone
  · obtain ⟨refs, hrefs, rfl⟩ := within_eq_ok.mp hdigest
    exact get_of_orTryInsertWith hrefs
  · rw [← resolve_under_digest hnone]
    exact (check_eq_ok.mp hdigest).1

theorem triple_grows (client : Client Packed) :
    Triple (Grows client) (w.run call) (fun _ client' => Grows client client' ∧ True)
      (fun _ client' => Grows client client' ∧ True) := by
  rw [run_eq, digestString_eq]
  refine triple_bind (Q := fun _ => Grows client) ?_ fun d => ?_
  · split_ifs
    · exact triple_conseq (triple_within (fun _ h => h.refs) (fun _ _ h hrefs => ⟨hrefs, h.manifests⟩)
        (triple_orTryInsertWith_extends _ _ _)) (fun _ h => h) fun _ _ h => h.1
    · exact triple_conseq (triple_check _ fun _ _ _ h => ⟨h, trivial⟩) (fun _ h => h) fun _ _ h => h.1
  · exact triple_within (fun _ h => h.manifests) (fun _ _ h hmanifests => ⟨h.refs, hmanifests⟩)
      (triple_orTryInsertWith_extends _ _ _)

theorem stored_serve {p : Packed} {s : LimitedClient Packed} (h : w.Stored call p s.toClient) (time : ℕ)
    (other : Call) : w.Stored call p (stateAfter (w.serve time other s)).toClient := by
  have hgrows : Grows s.toClient (stateAfter (w.serve time other s)).toClient := by
    have hrun := @triple_grows _ _ _ (w.under s.ratelimit time) other s.toClient s.toClient
      ⟨fun _ _ h => h, fun _ _ h => h⟩
    rw [serve_toClient]
    cases hcase : (w.under s.ratelimit time).run other s.toClient <;> rw [hcase] at hrun <;> exact hrun.1
  obtain ⟨d, hd, hp⟩ := h
  refine ⟨d, ?_, hgrows.manifests d p hp⟩
  split_ifs at hd ⊢ with hnone
  · exact hgrows.refs _ d hd
  · exact hd

theorem stored_calls {p : Packed} {s : LimitedClient Packed} (h : w.Stored call p s.toClient)
    {events : List Event} (hevents : ∀ event ∈ events, ∃ time other, event = .call time other) :
    w.Stored call p (events.foldl w.step s).toClient := by
  induction events generalizing s with
  | nil => exact h
  | cons event events ih =>
    obtain ⟨time, other, rfl⟩ := hevents event (by simp)
    exact ih (stored_serve h time other) fun e he => hevents e (by simp [he])

theorem answer_stored {p : Packed} {s : LimitedClient Packed} (h : w.Stored call p s.toClient) :
    w.answer s now call = .ok p := by
  rw [answer_eq, run_of_stored h]
  rfl

theorem stored_of_answer {p : Packed} {s : LimitedClient Packed} (h : w.answer s now call = .ok p) :
    w.Stored call p (stateAfter (w.serve now call s)).toClient := by
  rw [answer_eq] at h
  rw [serve_toClient]
  cases hcase : (w.under s.ratelimit now).run call s.toClient with
  | error e client =>
    rw [hcase] at h
    cases h
  | ok q client =>
    rw [hcase] at h
    cases h
    exact stored_of_run hcase

end Kept

theorem Same.ok {x : Except Error Packed} {p : Packed} (h : Same kind x (.ok p)) : x = .ok p := by
  cases x with
  | error e => cases h
  | ok q =>
    cases h
    rfl

theorem answer_free {s : LimitedClient Packed} (h : ¬ s.ratelimit.Blocks now call.reference) :
    w.answer s now call = result (w.run call s.toClient) := by
  rw [answer_eq, run_under h]

theorem after_one {other : Call} (hd : w.resolve other = .ok d) :
    (w.after [.call 0 other]).toClient =
      ⟨if other.reference.digest = none then [(other.reference.toText, d)] else [],
        (w.fetch other.reference d).toOption.toList.map (d, ·)⟩ := by
  have hafter : (w.after [.call 0 other]).toClient = stateAfter (w.run other .empty) :=
    serve_toClient .empty 0 other
  have hdigest : w.digestString other (Client.empty : Client Packed) =
      .ok d ⟨if other.reference.digest = none then [(other.reference.toText, d)] else [], []⟩ := by
    by_cases hnone : other.reference.digest = none
    · rw [digestString_miss hnone rfl hd, if_pos hnone]
      rfl
    · rw [digestString_digest hnone hd, if_neg hnone]
      rfl
  rw [hafter, run_of_digest hdigest, manifestEntry, within]
  cases w.fetch other.reference d with
  | ok p =>
    rw [orTryInsertWith_ok rfl]
    rfl
  | error e =>
    rw [orTryInsertWith_error rfl]
    rfl

/-- One call in between shows whether the platform matters and whether the
repository does. -/
theorem uniform_of_one_call (hparsed : ∀ call ∈ asked, call.reference.Parsed)
    (h : ∀ first ∈ asked, ∀ second ∈ asked, ∃ now,
      ¬ (w.after [.call 0 first]).ratelimit.Blocks now second.reference ∧
      Same kind (w.answer (w.after [.call 0 first]) now second) (w.direct second)) :
    w.Uniform asked kind := by
  constructor
  · rintro call hcall d ⟨other, hother, href, hd⟩
    obtain ⟨now, hfree, hsame⟩ := h other hother call hcall
    by_cases hdigest : call.reference.digest = none
    · rw [answer_free hfree, after_one hd, href, if_pos hdigest,
        run_of_digest (digestString_hit hdigest (d := d) (by simp [get_cons])), result_manifestEntry] at hsame
      cases hfetch : w.fetch call.reference d with
      | ok p => simpa [hfetch, Except.toOption, get_cons] using hsame
      | error e => simpa [hfetch, Except.toOption] using hsame
    · have hsame : w.resolve call = .ok d := by
        unfold Setting.resolve at hd ⊢
        rw [href] at hd
        cases hd' : call.reference.digest with
        | none => exact absurd hd' hdigest
        | some text =>
          rw [hd'] at hd
          exact hd
      rw [Setting.direct, hsame]
      rfl
  · rintro call hcall d p hd ⟨other, hother, hod, hp⟩
    by_cases href : other.reference = call.reference
    · rw [← href, hp]
      rfl
    obtain ⟨now, hfree, hsame⟩ := h other hother call hcall
    have hdirect : w.direct call = w.fetch call.reference d := by
      rw [Setting.direct, hd]
      rfl
    have hdigest : ∃ refs, w.digestString call (w.after [.call 0 other]).toClient =
        .ok d { (w.after [.call 0 other]).toClient with refCache := refs } := by
      by_cases hnone : call.reference.digest = none
      · refine ⟨_, digestString_miss hnone ?_ hd⟩
        rw [after_one hod]
        split_ifs with hother'
        · have hne : call.reference.toText ≠ other.reference.toText := fun he =>
            href (toText_inj (hparsed other hother) (hparsed call hcall) hother' hnone he.symm)
          simp [get_cons, hne]
        · rfl
      · exact ⟨_, digestString_digest hnone hd⟩
    obtain ⟨refs, hdigest⟩ := hdigest
    rw [answer_free hfree, run_of_digest hdigest, result_manifestEntry, after_one hod, hp, hdirect] at hsame
    simp only [Except.toOption, Option.toList_some, List.map_cons, List.map_nil, get_cons, if_true,
      Option.elim_some] at hsame
    exact hsame.symm

/-- The caches never show in the calls of a set exactly when they cannot: what
is looked at in an answer depends neither on the platform for a reference nor
on the repository for a digest. -/
theorem caching_transparent_iff (w : Setting Manifest Configuration Packed) (asked : Set Call)
    (kind : Error → Kind) (hparsed : ∀ call ∈ asked, call.reference.Parsed) :
    (∀ events, (∀ time call, .call time call ∈ events → call ∈ asked) → ∀ now, ∀ call ∈ asked,
        w.Unlimited asked kind events now call →
        Same kind (w.answer (w.after events) now call) (w.answer .empty now call)) ↔
      w.Uniform asked kind := by
  constructor
  · intro h
    refine uniform_of_one_call hparsed fun first hfirst second hsecond => ?_
    -- the header has finitely many values, so that there is a time when every limit is over
    have hfinite : Finite UInt64 := Finite.of_injective UInt64.toFin fun _ _ => UInt64.toFin_inj.mp
    obtain ⟨now, hbound⟩ := (Set.finite_range (w.endTime 0)).bddAbove
    have hnow : ∀ reset, w.endTime 0 reset ≤ now := fun reset => hbound ⟨reset, rfl⟩
    have hevents : ∀ time call, .call time call ∈ [Event.call 0 first] → call ∈ asked := by
      intro time call hmem
      cases List.mem_singleton.mp hmem
      exact hfirst
    have hover : w.Over asked [.call 0 first] now second := by
      intro time other hmem _ _ _ reset _
      cases List.mem_singleton.mp hmem
      exact hnow reset
    refine ⟨now, not_blocked hparsed hevents hover, ?_⟩
    rw [← answer_empty now second]
    exact h _ hevents now second hsecond (.past hover)
  · intro huniform events hevents now call hcall hunlimited
    rw [answer_empty]
    have hfree : ∀ {events now}, (∀ time call, .call time call ∈ events → call ∈ asked) →
        w.Over asked events now call → Same kind (w.answer (w.after events) now call) (w.direct call) :=
      fun hevents hover => (answer_sound hparsed huniform hcall (sound_after hparsed hevents)).resolve_right
        fun hb => not_blocked hparsed hevents hover hb.1
    cases hunlimited with
    | past hover => exact hfree hevents hover
    | limited hlimited =>
      rcases answer_sound hparsed huniform hcall (sound_after hparsed hevents) with hsame | ⟨-, he⟩
      · exact hsame
      · rw [he]
        exact hlimited.symm
    | @kept front back time p hsplit hover hgot hback =>
      subst hsplit
      have hfront := hfree (fun time call hmem => hevents time call (by simp [hmem])) hover
      rw [hgot] at hfront
      have hstored := stored_calls (stored_of_answer hfront.ok) hback
      have hafter : w.after (front ++ .call time call :: back) =
          back.foldl w.step (stateAfter (w.serve time call (w.after front))) := by
        rw [Setting.after, List.foldl_append]
        rfl
      rw [hafter, answer_stored hstored, hgot]
      rfl

def hexDescriptor (c : Char) : Descriptor := ⟨⟨sha256Name, [c, c]⟩, 1⟩

/-- Every text has an image for two architectures. The hash of a byte is the
byte. -/
def twoArchRegistries : Registries where
  manifest _ _ accept td :=
    match accept, td with
    | .imageIndex, _ => .ok ⟨.ok, ociImageIndexV1, none, [], false⟩
    | .imageManifest, .digest s =>
      .ok ⟨.ok, ociImageManifestV1, none,
        [if s = (hexDescriptor 'a').digest.text then [0xaa] else [0xbb]], false⟩
    | .imageManifest, .tag _ => .ok ⟨.notFound, [], none, [], false⟩
  blob _ _ _ := .ok ⟨.ok, [], none, [[0xcc]], false⟩

def twoArchFormat : IndexFormat Bytes Bytes (Bytes × Bytes) where
  wellFormed _ _ := true
  manifest := some
  configuration := some
  config _ := hexDescriptor 'c'
  pack _ manifest configuration := some (manifest, configuration)
  index _ := some [(hexDescriptor 'a', some ⟨.amd64, .linux⟩),
    (hexDescriptor 'b', some ⟨.other ['a', 'r', 'm', '6', '4'], .linux⟩)]
  configPlatform _ := none

def busyboxFor (arch : Arch) : Call :=
  ⟨⟨⟨some "latest".toList, none⟩, "quay.io".toList, "prometheus/busybox".toList⟩, arch, .linux⟩

def twoArch : Setting Bytes Bytes (Bytes × Bytes) :=
  ⟨twoArchFormat, id, twoArchRegistries, registryEnd 8000000000000⟩

/-- A client that is asked for one image on one platform only. -/
theorem caching_transparent_one_call :
    (∀ call ∈ ({busyboxFor .amd64} : Set Call), call.reference.Parsed) ∧
      Same id (twoArch.answer (twoArch.after [.call 0 (busyboxFor .amd64)]) 1 (busyboxFor .amd64))
        (twoArch.answer .empty 1 (busyboxFor .amd64)) := by
  have hparsed : ∀ call ∈ ({busyboxFor .amd64} : Set Call), call.reference.Parsed := by
    rintro call rfl
    exact ⟨by decide, by decide⟩
  have huniform : twoArch.Uniform {busyboxFor .amd64} id := by
    constructor
    · rintro call rfl d ⟨other, rfl, -, hd⟩
      rw [Setting.direct, hd]
      rfl
    · rintro call rfl d p - ⟨other, rfl, -, hp⟩
      rw [hp]
      rfl
  refine ⟨hparsed, (caching_transparent_iff twoArch _ id hparsed).mpr huniform _ ?_ 1 _ rfl ?_⟩
  · intro time call hmem
    cases List.mem_singleton.mp hmem
    rfl
  · have hgot : twoArch.direct (busyboxFor .amd64) = .ok ([0xaa], [0xcc]) := by decide +kernel
    exact .kept (List.nil_append _).symm (fun _ _ hmem => nomatch hmem) hgot (fun _ hmem => nomatch hmem)

def privateCall : Call :=
  ⟨⟨⟨some "latest".toList, none⟩, "quay.io".toList, "private".toList⟩, .amd64, .linux⟩

def closedRegistries : Registries :=
  { twoArchRegistries with
    manifest := fun registry repository accept td =>
      if repository = "private".toList then .error .ratelimitExceeded
      else twoArchRegistries.manifest registry repository accept td }

def closed : Setting Bytes Bytes (Bytes × Bytes) := { twoArch with registries := closedRegistries }

/-- After a call for one architecture, a call for the other gets the image of
the first; and a repository that is refused shuts out the others of its
registry. -/
theorem other_platform_served :
    (twoArch.answer .empty 1 (busyboxFor .amd64) = .ok ([0xaa], [0xcc]) ∧
      twoArch.answer (twoArch.after [.call 0 (busyboxFor (.other ['a', 'r', 'm', '6', '4']))]) 1
        (busyboxFor .amd64) = .ok ([0xbb], [0xcc])) ∧
    closed.answer .empty 1 (busyboxFor .amd64) = .ok ([0xaa], [0xcc]) ∧
      closed.answer (closed.after [.call 0 privateCall]) 1 (busyboxFor .amd64) = .error limitError := by
  decide +kernel

end Transparency

section Platforms

variable {Manifest Configuration Packed : Type}
variable (format : IndexFormat Manifest Configuration Packed) (sha256 : Bytes → Bytes)

def IsIndex (contentType : List Char) : Prop :=
  contentType = ociImageIndexV1 ∨ contentType = dockerImageManifestListV2

def IsManifest (contentType : List Char) : Prop :=
  contentType = ociImageManifestV1 ∨ contentType = dockerImageManifestV2

def FirstFor (index : List (Descriptor × Option Platform)) (platform : Platform) (d : Descriptor) :
    Prop :=
  ∃ front rest, index = front ++ (d, some platform) :: rest ∧ ∀ entry ∈ front, entry.2 ≠ some platform

/-- What the answer of a registry holds for a platform. A manifest that does
not say its platform counts as one for amd64 and linux. -/
inductive Holds (platform : Platform) : List Char × Option Digest × Bytes → Descriptor → Prop
  | index {contentType digest data index d} (htype : IsIndex contentType)
      (hindex : format.index data = some index) (hfirst : FirstFor index platform d) :
      Holds platform (contentType, digest, data) d
  | manifest {contentType digest data manifest} (htype : IsManifest contentType)
      (hmanifest : format.manifest data = some manifest)
      (hplatform : (format.configPlatform manifest).getD ⟨.amd64, .linux⟩ = platform) :
      Holds platform (contentType, digest, data) ⟨digest.getD (digestFromData sha256 data), data.length⟩

/-- A single manifest that does not say its platform, asked for with only one
of the architecture and the system being the usual one. -/
def HalfPresumed (platform : Platform) : List Char × Option Digest × Bytes → Prop
  | (contentType, _, data) => IsManifest contentType ∧
      ∃ manifest, format.manifest data = some manifest ∧ format.configPlatform manifest = none ∧
        ¬ (platform.architecture = .amd64 ↔ platform.os = .linux)

theorem isIndex_not_isManifest {contentType : List Char} (h : IsIndex contentType) :
    ¬ IsManifest contentType := by
  rcases h with rfl | rfl <;> unfold IsManifest <;> decide

variable {format sha256}

theorem find_platform {index : List (Descriptor × Option Platform)} {arch : Arch} {os : Os}
    {entry : Descriptor × Option Platform} :
    (index.find? fun entry => entry.2.elim false fun p => p.architecture = arch ∧ p.os = os) = some entry ↔
      entry.2 = some ⟨arch, os⟩ ∧ FirstFor index ⟨arch, os⟩ entry.1 := by
  have hmatches (e : Descriptor × Option Platform) :
      (e.2.elim false fun p => decide (p.architecture = arch ∧ p.os = os)) = true ↔
        e.2 = some ⟨arch, os⟩ := by
    cases e.2 with
    | none => simp
    | some p => cases p; simp
  simp only [List.find?_eq_some_iff_append, hmatches, Bool.not_eq_true', ← Bool.not_eq_true]
  constructor
  · rintro ⟨hentry, front, rest, hindex, hfront⟩
    exact ⟨hentry, front, rest, by rw [hindex, ← hentry], hfront⟩
  · rintro ⟨hentry, front, rest, hindex, hfront⟩
    exact ⟨hentry, front, rest, by rw [hindex, ← hentry], hfront⟩

theorem descriptorFromIndex_iff {data : Bytes} {arch : Arch} {os : Os} {d : Descriptor} :
    descriptorFromIndex format data arch os = .ok (some d) ↔
      ∃ index, format.index data = some index ∧ FirstFor index ⟨arch, os⟩ d := by
  unfold descriptorFromIndex
  rw [except_bind_eq_ok]
  simp only [okOr_eq_ok]
  refine exists_congr fun index => and_congr_right fun _ => ?_
  constructor
  · intro h
    split at h
    case h_1 descriptor platform hfind =>
      cases h
      exact (find_platform.mp hfind).2
    case h_2 => cases h
  · intro h
    simp only [(@find_platform index arch os (d, some ⟨arch, os⟩)).mpr ⟨rfl, h⟩]

/-- A manifest is taken for the platform it names, and without one as soon as
the architecture or the system is the usual one. -/
theorem descriptorOfManifest_iff {digest : Option Digest} {data : Bytes} {arch : Arch} {os : Os}
    {d : Descriptor} :
    descriptorOfManifest format sha256 digest data arch os = .ok (some d) ↔
      d = ⟨digest.getD (digestFromData sha256 data), data.length⟩ ∧
        ∃ manifest, format.manifest data = some manifest ∧
          (format.configPlatform manifest).elim (arch = .amd64 ∨ os = .linux) (· = ⟨arch, os⟩) := by
  unfold descriptorOfManifest
  simp only [except_bind_eq_ok, okOr_eq_ok]
  rw [and_comm (a := d = _), ← exists_and_right]
  refine exists_congr fun manifest => ?_
  rw [and_assoc]
  refine and_congr_right fun _ => ?_
  cases format.configPlatform manifest with
  | none =>
    by_cases h : arch ≠ .amd64 ∧ os ≠ .linux
    · simp [h]
    · have hor : arch = .amd64 ∨ os = .linux := by tauto
      simp [h, hor, eq_comm]
  | some p =>
    cases p with
    | mk a o =>
      by_cases h : a ≠ arch ∨ o ≠ os
      · simp [h]
        tauto
      · have heq : a = arch ∧ o = os := by tauto
        simp [heq, eq_comm]

theorem holds_or_halfPresumed {arch : Arch} {os : Os} {contentType : List Char} {digest : Option Digest}
    {data : Bytes} {d : Descriptor} (htype : IsManifest contentType)
    (h : descriptorOfManifest format sha256 digest data arch os = .ok (some d)) :
    Holds format sha256 ⟨arch, os⟩ (contentType, digest, data) d ↔
      ¬ HalfPresumed format ⟨arch, os⟩ (contentType, digest, data) := by
  obtain ⟨rfl, manifest, hmanifest, hplatform⟩ := descriptorOfManifest_iff.mp h
  constructor
  · rintro (⟨hindex, -, -⟩ | ⟨-, hm, hp⟩) ⟨-, m, hm', hnone, hhalf⟩
    · exact isIndex_not_isManifest hindex htype
    · obtain rfl := Option.some.inj (hm.symm.trans hm')
      rw [hnone] at hp
      cases hp
      exact hhalf ⟨fun _ => rfl, fun _ => rfl⟩
  · intro hnot
    refine .manifest htype hmanifest ?_
    cases hp : format.configPlatform manifest with
    | some p => simpa [hp] using hplatform
    | none =>
      rw [hp] at hplatform
      have hiff : arch = .amd64 ↔ os = .linux := by
        by_contra hhalf
        exact hnot ⟨htype, manifest, hmanifest, hp, hhalf⟩
      rcases hplatform with rfl | rfl
      · rw [hiff.mp rfl]
        rfl
      · rw [hiff.mpr rfl]
        rfl

theorem descriptorOfManifest_of_halfPresumed {arch : Arch} {os : Os} {contentType : List Char}
    {digest : Option Digest} {data : Bytes}
    (h : HalfPresumed format ⟨arch, os⟩ (contentType, digest, data)) :
    descriptorOfManifest format sha256 digest data arch os =
      .ok (some ⟨digest.getD (digestFromData sha256 data), data.length⟩) := by
  obtain ⟨-, manifest, hmanifest, hnone, hhalf⟩ := h
  refine descriptorOfManifest_iff.mpr ⟨rfl, manifest, hmanifest, ?_⟩
  rw [hnone]
  change arch = .amd64 ∨ os = .linux
  change ¬ (arch = .amd64 ↔ os = .linux) at hhalf
  tauto

/-- What is returned is for the platform asked for, unless it is a manifest
that does not say its platform and only half of the platform is the usual one. -/
theorem platform_selection_iff (format : IndexFormat Manifest Configuration Packed)
    (sha256 : Bytes → Bytes) (registries : Registries) (reference : ImageReference) (arch : Arch) (os : Os) :
    (∀ d, getMatchingDescriptorFromIndex format sha256 registries reference arch os = .ok (some d) →
      ∃ response, getManifest format.toOciFormat sha256 (registries.answering reference .imageIndex)
          reference.toReference = .ok (some response) ∧ Holds format sha256 ⟨arch, os⟩ response d) ↔
    ¬ ∃ response, getManifest format.toOciFormat sha256 (registries.answering reference .imageIndex)
          reference.toReference = .ok (some response) ∧ HalfPresumed format ⟨arch, os⟩ response := by
  unfold getMatchingDescriptorFromIndex
  cases hresponse : getManifest format.toOciFormat sha256 (registries.answering reference .imageIndex)
      reference.toReference with
  | error e => simp [bind, Except.bind]
  | ok response =>
    rcases response with _ | ⟨contentType, digest, data⟩
    · simp [bind, Except.bind]
    simp only [bind, Except.bind, Except.ok.injEq, Option.some.injEq, exists_eq_left']
    split_ifs with hindex hmanifest
    · refine iff_of_true ?_ fun hhalf => isIndex_not_isManifest hindex hhalf.1
      intro d hd
      obtain ⟨index, hdata, hfirst⟩ := descriptorFromIndex_iff.mp hd
      exact .index hindex hdata hfirst
    · constructor
      · intro hall hhalf
        have htaken := @descriptorOfManifest_of_halfPresumed _ _ _ _ sha256 _ _ _ _ _ hhalf
        exact (holds_or_halfPresumed hmanifest htaken).mp (hall _ htaken) hhalf
      · intro hnot d hd
        exact (holds_or_halfPresumed hmanifest hd).mpr hnot
    · refine iff_of_true (fun d hd => ?_) fun hhalf => hmanifest hhalf.1
      cases hd

def oneManifestRegistries : Registries where
  manifest _ _ _ _ := .ok ⟨.ok, ociImageManifestV1, none, [[0xaa]], false⟩
  blob _ _ _ := .ok ⟨.notFound, [], none, [], false⟩

/-- It is returned for amd64 and windows. -/
theorem half_presumed_taken :
    getMatchingDescriptorFromIndex twoArchFormat id oneManifestRegistries (busyboxFor .amd64).reference
        .amd64 (.other "windows".toList) = .ok (some (hexDescriptor 'a')) ∧
      ¬ ∃ response, getManifest twoArchFormat.toOciFormat id
            (oneManifestRegistries.answering (busyboxFor .amd64).reference .imageIndex)
            (busyboxFor .amd64).reference.toReference = .ok (some response) ∧
          Holds twoArchFormat id ⟨.amd64, .other "windows".toList⟩ response (hexDescriptor 'a') := by
  refine ⟨by decide +kernel, ?_⟩
  rintro ⟨response, hresponse, hholds⟩
  have hsent : getManifest twoArchFormat.toOciFormat id
      (oneManifestRegistries.answering (busyboxFor .amd64).reference .imageIndex)
      (busyboxFor .amd64).reference.toReference = .ok (some (ociImageManifestV1, none, [0xaa])) := by
    decide +kernel
  cases hsent.symm.trans hresponse
  generalize hexDescriptor 'a' = d at hholds
  cases hholds with
  | index htype => exact isIndex_not_isManifest htype (.inl rfl)
  | manifest _ _ hplatform => cases hplatform

end Platforms

end ProgramExplorer.OcidistCache
