import ProgramExplorer.BearerChallenge
import ProgramExplorer.Transitions

/-!
# Tokens and credentials of the registry client

A request is sent with the token that the cache has for its repository, if any.
When the registry turns it down, its challenge names a realm; the client asks
there for a token, with the user name and the password it has for the registry,
and sends the request once more. Any number of requests run at a time, one of
them at most asks for the token of a repository, and the others wait for it.
What the servers answer is not trusted, and neither is where they redirect to:
the HTTP library follows a redirect by itself, twice at most.
-/

set_option autoImplicit false

namespace ProgramExplorer.RegistryAuth
open ByteStrings BearerChallenge Transitions

section Model

/-- The repository of a reference, behind `resolve_registry`. A registry is a
host, perhaps with a port. -/
structure Target where
  registry : List Char
  repository : List Char
  host : '/' ∉ registry
  deriving DecidableEq

abbrev TokenCacheKey := List Char

def tokenCacheKey (target : Target) : TokenCacheKey := target.registry ++ '/' :: target.repository

structure Token where
  token : List Char
  expiresIn : ℕ
  deriving DecidableEq

inductive Auth where
  | none
  | userPass (user pass : List Char)
  deriving DecidableEq

abbrev AuthMap := List Char → Option Auth

inductive Error where
  | reqwest
  | ratelimitExceeded
  | statusNotOk (status : ℕ)
  | registryNotSupported (registry : List Char)
  | unknown
  | cancelled
  deriving DecidableEq

/-- The hosts a request was redirected to (`Policy::limited(2)`). The answer comes
from the last of them, or from the host that was asked if there is none. -/
structure Route where
  hosts : List (List Char)
  limited : hosts.length ≤ 2
  deriving DecidableEq

def Route.direct : Route := ⟨[], Nat.zero_le 2⟩

def Route.origin (route : Route) (asked : List Char) : List Char := route.hosts.getLast?.getD asked

structure Response where
  status : ℕ
  wwwAuthenticate : Option HeaderValue
  route : Route

structure JsonToken where
  token : List Char
  expiresIn : Option ℕ
  deriving DecidableEq

def JsonToken.toToken (json : JsonToken) : Token := ⟨json.token, json.expiresIn.getD 60⟩

/-- A request to a registry, and one to a realm with the parameters of its
query and the credentials in its header. -/
inductive Message where
  | get (registry repository : List Char) (bearer : Option (List Char))
  | token (realm service scope user pass : List Char)
  deriving DecidableEq

def scopeOf (repository : List Char) : List Char := "repository:".toList ++ repository ++ ":pull".toList

/-- Where `auth_and_retry` is. From `entering` to `waiting` it is in
`or_try_insert_with`, and `retrieving` runs the future that it was given. -/
inductive Phase where
  | idle
  | checked (target : Target)
  | asked (target : Target)
  | challenged (target : Target) (wwwAuth : WWWAuthenticateBearerRealmService)
  | entering (target : Target) (wwwAuth : WWWAuthenticateBearerRealmService) (user pass : List Char)
  | retrieving (target : Target) (wwwAuth : WWWAuthenticateBearerRealmService) (user pass : List Char)
  | waiting (target : Target) (wwwAuth : WWWAuthenticateBearerRealmService) (user pass : List Char)
  | retrying (target : Target) (token : Token)
  | askedAgain (target : Target)
  | ended (result : Except Error ℕ)
  deriving DecidableEq

/-- `check_ratelimit` lets a call pass or not; what it looks at is not part of
this model. A call may be dropped wherever it waits. -/
inductive Event where
  | start (task : ℕ) (target : Target)
  | refuse (task : ℕ) (target : Target)
  | send (task : ℕ)
  | respond (task : ℕ) (response : Response)
  | authorize (task : ℕ)
  | enter (task : ℕ)
  | grant (task : ℕ) (route : Route) (json : JsonToken)
  | fail (task : ℕ)
  | cancel (task : ℕ)
  | expire (key : TokenCacheKey)
  | setAuth (auth : AuthMap)

structure Challenge where
  target : Target
  wwwAuth : WWWAuthenticateBearerRealmService
  origin : List Char
  deriving DecidableEq

structure Grant where
  token : Token
  target : Target
  wwwAuth : WWWAuthenticateBearerRealmService
  user : List Char
  pass : List Char
  route : Route
  deriving DecidableEq

/-- `sent`, `challenges`, `grants` and `auths` keep what has gone over the
network and which credentials the client has held. -/
structure State where
  tokenCache : TokenCacheKey → Option Token
  inits : TokenCacheKey → Option ℕ
  authStore : AuthMap
  tasks : ℕ → Phase
  sent : List (ℕ × Message)
  challenges : List Challenge
  grants : List Grant
  auths : List AuthMap

def init : State where
  tokenCache _ := none
  inits _ := none
  authStore _ := none
  tasks _ := .idle
  sent := []
  challenges := []
  grants := []
  auths := [fun _ => none]

def State.goto (s : State) (task : ℕ) (phase : Phase) : State :=
  { s with tasks := Function.update s.tasks task phase }

def State.emit (s : State) (task : ℕ) (message : Message) : State :=
  { s with sent := (task, message) :: s.sent }

def Phase.waitsFor (phase : Phase) (key : TokenCacheKey) : Bool :=
  match phase with
  | .waiting target _ _ _ => tokenCacheKey target = key
  | _ => false

/-- The future for a key is over; `own` is where its call goes, and `others`
where those go that wait for it. -/
def State.settle (s : State) (task : ℕ) (key : TokenCacheKey) (own : Phase)
    (others : Phase → Phase) : State :=
  { s with
    inits := Function.update s.inits key none
    tasks := fun t =>
      if t = task then own else if (s.tasks t).waitsFor key then others (s.tasks t) else s.tasks t }

def Phase.served (token : Token) : Phase → Phase
  | .waiting target _ _ _ => .retrying target token
  | phase => phase

def Phase.released : Phase → Phase
  | .waiting target wwwAuth user pass => .entering target wwwAuth user pass
  | phase => phase

/-- `handle_ratelimit`, and on the first response what the status asks for. -/
def afterResponse (s : State) (task : ℕ) (target : Target) (response : Response) : State :=
  if response.status = 403 ∨ response.status = 429 then s.goto task (.ended (.error .ratelimitExceeded))
  else if response.status ≠ 401 then s.goto task (.ended (.ok response.status))
  else
    match response.wwwAuthenticate.bind (parseWwwAuthenticateBearerHeader Combinators.complete visible) with
    | none => s.goto task (.ended (.error (.statusNotOk 401)))
    | some wwwAuth =>
      { s.goto task (.challenged target wwwAuth) with
        challenges := ⟨target, wwwAuth, response.route.origin target.registry⟩ :: s.challenges }

def afterRetry (s : State) (task : ℕ) (response : Response) : State :=
  if response.status = 403 ∨ response.status = 429 then s.goto task (.ended (.error .ratelimitExceeded))
  else s.goto task (.ended (.ok response.status))

def authorize (s : State) (task : ℕ) (target : Target)
    (wwwAuth : WWWAuthenticateBearerRealmService) : State :=
  match s.authStore target.registry with
  | none => s.goto task (.ended (.error (.registryNotSupported target.registry)))
  | some .none => s.goto task (.ended (.error (.statusNotOk 401)))
  | some (.userPass user pass) => s.goto task (.entering target wwwAuth user pass)

/-- The entry of the cache: its value, the future of another call, or one's own. -/
def enter (s : State) (task : ℕ) (target : Target) (wwwAuth : WWWAuthenticateBearerRealmService)
    (user pass : List Char) : State :=
  let key := tokenCacheKey target
  match s.tokenCache key, s.inits key with
  | some token, _ => s.goto task (.retrying target token)
  | none, some _ => s.goto task (.waiting target wwwAuth user pass)
  | none, none =>
    { (s.goto task (.retrieving target wwwAuth user pass)).emit task
        (.token wwwAuth.realm wwwAuth.service (scopeOf target.repository) user pass) with
      inits := Function.update s.inits key (some task) }

def grant (s : State) (task : ℕ) (target : Target) (wwwAuth : WWWAuthenticateBearerRealmService)
    (user pass : List Char) (route : Route) (json : JsonToken) : State :=
  let token := json.toToken
  let key := tokenCacheKey target
  { s.settle task key (.retrying target token) (Phase.served token) with
    tokenCache := Function.update s.tokenCache key (some token)
    grants := ⟨token, target, wwwAuth, user, pass, route⟩ :: s.grants }

def step (s : State) : Event → Option State
  | .start task target =>
    match s.tasks task with
    | .idle => some (s.goto task (.checked target))
    | _ => none
  | .refuse task _ =>
    match s.tasks task with
    | .idle => some (s.goto task (.ended (.error .ratelimitExceeded)))
    | _ => none
  | .send task =>
    match s.tasks task with
    | .checked target =>
      some ((s.goto task (.asked target)).emit task
        (.get target.registry target.repository ((s.tokenCache (tokenCacheKey target)).map Token.token)))
    | .retrying target token =>
      some ((s.goto task (.askedAgain target)).emit task
        (.get target.registry target.repository (some token.token)))
    | _ => none
  | .respond task response =>
    match s.tasks task with
    | .asked target => some (afterResponse s task target response)
    | .askedAgain _ => some (afterRetry s task response)
    | _ => none
  | .authorize task =>
    match s.tasks task with
    | .challenged target wwwAuth => some (authorize s task target wwwAuth)
    | _ => none
  | .enter task =>
    match s.tasks task with
    | .entering target wwwAuth user pass => some (enter s task target wwwAuth user pass)
    | _ => none
  | .grant task route json =>
    match s.tasks task with
    | .retrieving target wwwAuth user pass => some (grant s task target wwwAuth user pass route json)
    | _ => none
  | .fail task =>
    match s.tasks task with
    | .asked _ | .askedAgain _ => some (s.goto task (.ended (.error .reqwest)))
    | .retrieving target _ _ _ =>
      some (s.settle task (tokenCacheKey target) (.ended (.error .unknown)) fun _ => .ended (.error .unknown))
    | _ => none
  | .cancel task =>
    match s.tasks task with
    | .retrieving target _ _ _ =>
      some (s.settle task (tokenCacheKey target) (.ended (.error .cancelled)) Phase.released)
    | .idle | .ended _ => none
    | _ => some (s.goto task (.ended (.error .cancelled)))
  | .expire key => some { s with tokenCache := Function.update s.tokenCache key none }
  | .setAuth auth => some { s with authStore := auth, auths := auth :: s.auths }

end Model

section Moves

inductive Moves (s : State) : Event → State → Prop where
  | starts {task : ℕ} {target : Target} (h : s.tasks task = .idle) :
    Moves s (.start task target) (s.goto task (.checked target))
  | refuses {task : ℕ} {target : Target} (h : s.tasks task = .idle) :
    Moves s (.refuse task target) (s.goto task (.ended (.error .ratelimitExceeded)))
  | sends {task : ℕ} {target : Target} (h : s.tasks task = .checked target) :
    Moves s (.send task) ((s.goto task (.asked target)).emit task
      (.get target.registry target.repository ((s.tokenCache (tokenCacheKey target)).map Token.token)))
  | sendsAgain {task : ℕ} {target : Target} {token : Token} (h : s.tasks task = .retrying target token) :
    Moves s (.send task) ((s.goto task (.askedAgain target)).emit task
      (.get target.registry target.repository (some token.token)))
  | responds {task : ℕ} {target : Target} {response : Response} (h : s.tasks task = .asked target) :
    Moves s (.respond task response) (afterResponse s task target response)
  | respondsAgain {task : ℕ} {target : Target} {response : Response} (h : s.tasks task = .askedAgain target) :
    Moves s (.respond task response) (afterRetry s task response)
  | authorizes {task : ℕ} {target : Target} {wwwAuth : WWWAuthenticateBearerRealmService}
      (h : s.tasks task = .challenged target wwwAuth) :
    Moves s (.authorize task) (authorize s task target wwwAuth)
  | enters {task : ℕ} {target : Target} {wwwAuth : WWWAuthenticateBearerRealmService} {user pass : List Char}
      (h : s.tasks task = .entering target wwwAuth user pass) :
    Moves s (.enter task) (enter s task target wwwAuth user pass)
  | grants {task : ℕ} {target : Target} {wwwAuth : WWWAuthenticateBearerRealmService} {user pass : List Char}
      {route : Route} {json : JsonToken} (h : s.tasks task = .retrieving target wwwAuth user pass) :
    Moves s (.grant task route json) (grant s task target wwwAuth user pass route json)
  | settles {event : Event} {task : ℕ} {target : Target} {wwwAuth : WWWAuthenticateBearerRealmService}
      {user pass : List Char} {e : Error} {others : Phase → Phase} (hevent : event = .fail task ∨ event = .cancel task)
      (h : s.tasks task = .retrieving target wwwAuth user pass)
      (hothers : others = Phase.released ∨ ∃ e', others = fun _ => .ended (.error e')) :
    Moves s event (s.settle task (tokenCacheKey target) (.ended (.error e)) others)
  | stops {event : Event} {task : ℕ} {e : Error} (hevent : event = .fail task ∨ event = .cancel task) :
    Moves s event (s.goto task (.ended (.error e)))
  | expires {key : TokenCacheKey} :
    Moves s (.expire key) { s with tokenCache := Function.update s.tokenCache key none }
  | setsAuth {auth : AuthMap} : Moves s (.setAuth auth) { s with authStore := auth, auths := auth :: s.auths }

theorem moves_of_step {s t : State} {event : Event} (hstep : step s event = some t) : Moves s event t := by
  cases event with
  | start task target =>
    simp only [step] at hstep
    split at hstep
    · next h =>
      cases hstep
      exact .starts h
    · cases hstep
  | refuse task target =>
    simp only [step] at hstep
    split at hstep
    · next h =>
      cases hstep
      exact .refuses h
    · cases hstep
  | send task =>
    simp only [step] at hstep
    split at hstep
    · next h =>
      cases hstep
      exact .sends h
    · next h =>
      cases hstep
      exact .sendsAgain h
    · cases hstep
  | respond task response =>
    simp only [step] at hstep
    split at hstep
    · next h =>
      cases hstep
      exact .responds h
    · next h =>
      cases hstep
      exact .respondsAgain h
    · cases hstep
  | authorize task =>
    simp only [step] at hstep
    split at hstep
    · next h =>
      cases hstep
      exact .authorizes h
    · cases hstep
  | enter task =>
    simp only [step] at hstep
    split at hstep
    · next h =>
      cases hstep
      exact .enters h
    · cases hstep
  | grant task route json =>
    simp only [step] at hstep
    split at hstep
    · next h =>
      cases hstep
      exact .grants h
    · cases hstep
  | fail task =>
    simp only [step] at hstep
    split at hstep
    · cases hstep
      exact .stops (.inl rfl)
    · cases hstep
      exact .stops (.inl rfl)
    · next h =>
      cases hstep
      exact .settles (.inl rfl) h (.inr ⟨_, rfl⟩)
    · cases hstep
  | cancel task =>
    simp only [step] at hstep
    split at hstep
    · next h =>
      cases hstep
      exact .settles (.inr rfl) h (.inl rfl)
    · cases hstep
    · cases hstep
    · cases hstep
      exact .stops (.inr rfl)
  | expire key =>
    cases hstep
    exact .expires
  | setAuth auth =>
    cases hstep
    exact .setsAuth

theorem afterResponse_cases (s : State) (task : ℕ) (target : Target) (response : Response) :
    (∃ result, afterResponse s task target response = s.goto task (.ended result)) ∨
      ∃ wwwAuth, afterResponse s task target response =
        { s.goto task (.challenged target wwwAuth) with
          challenges := ⟨target, wwwAuth, response.route.origin target.registry⟩ :: s.challenges } := by
  unfold afterResponse
  split_ifs
  · exact .inl ⟨_, rfl⟩
  · exact .inl ⟨_, rfl⟩
  · split
    · exact .inl ⟨_, rfl⟩
    · exact .inr ⟨_, rfl⟩

theorem afterRetry_eq (s : State) (task : ℕ) (response : Response) :
    ∃ result, afterRetry s task response = s.goto task (.ended result) := by
  unfold afterRetry
  split_ifs <;> exact ⟨_, rfl⟩

theorem authorize_cases (s : State) (task : ℕ) (target : Target)
    (wwwAuth : WWWAuthenticateBearerRealmService) :
    (∃ result, authorize s task target wwwAuth = s.goto task (.ended result)) ∨
      ∃ user pass, s.authStore target.registry = some (.userPass user pass) ∧
        authorize s task target wwwAuth = s.goto task (.entering target wwwAuth user pass) := by
  unfold authorize
  split
  · exact .inl ⟨_, rfl⟩
  · exact .inl ⟨_, rfl⟩
  · next user pass hauth => exact .inr ⟨user, pass, hauth, rfl⟩

end Moves

section Confinement

/-- A host has no slash, so that the key tells the host from the repository. -/
theorem tokenCacheKey_inj {a b : Target} (h : tokenCacheKey a = tokenCacheKey b) : a = b := by
  obtain ⟨r, p, hr⟩ := a
  obtain ⟨r', p', hr'⟩ := b
  obtain ⟨rfl, rfl⟩ := append_cons_inj hr hr' h
  rfl

/-- The realm was named in an answer to a request for the repository, by the
registry or by the host to which its redirects have led. -/
def Challenged (s : State) (target : Target) (wwwAuth : WWWAuthenticateBearerRealmService) : Prop :=
  ∃ route : Route, ⟨target, wwwAuth, route.origin target.registry⟩ ∈ s.challenges

def Stored (s : State) (target : Target) (user pass : List Char) : Prop :=
  ∃ auth ∈ s.auths, auth target.registry = some (.userPass user pass)

def Requested (s : State) (target : Target) (wwwAuth : WWWAuthenticateBearerRealmService)
    (user pass : List Char) : Prop :=
  ∃ task, (task, Message.token wwwAuth.realm wwwAuth.service (scopeOf target.repository) user pass) ∈ s.sent

def Granted (s : State) (target : Target) (token : Token) : Prop :=
  ∃ g ∈ s.grants, g.token = token ∧ g.target = target

def PhaseFits (s : State) : Phase → Prop
  | .challenged target wwwAuth => Challenged s target wwwAuth
  | .entering target wwwAuth user pass | .waiting target wwwAuth user pass =>
    Challenged s target wwwAuth ∧ Stored s target user pass
  | .retrieving target wwwAuth user pass =>
    (Challenged s target wwwAuth ∧ Stored s target user pass) ∧ Requested s target wwwAuth user pass
  | .retrying target token => Granted s target token
  | .idle | .checked _ | .asked _ | .askedAgain _ | .ended _ => True

def Allowed (s : State) : Message → Prop
  | .get _ _ none => True
  | .get registry repository (some bearer) =>
    ∃ g ∈ s.grants, g.token.token = bearer ∧ g.target.registry = registry ∧ g.target.repository = repository
  | .token realm service scope user pass =>
    ∃ target, scope = scopeOf target.repository ∧ Challenged s target ⟨realm, service⟩ ∧
      Stored s target user pass

structure Confined (s : State) : Prop where
  auth : s.authStore ∈ s.auths
  cache : ∀ key token, s.tokenCache key = some token → ∃ target, tokenCacheKey target = key ∧
    Granted s target token
  tasks : ∀ task, PhaseFits s (s.tasks task)
  grants : ∀ g ∈ s.grants, (Challenged s g.target g.wwwAuth ∧ Stored s g.target g.user g.pass) ∧
    Requested s g.target g.wwwAuth g.user g.pass
  sent : ∀ task message, (task, message) ∈ s.sent → Allowed s message

structure Grows (s t : State) : Prop where
  sent : s.sent ⊆ t.sent
  challenges : s.challenges ⊆ t.challenges
  grants : s.grants ⊆ t.grants
  auths : s.auths ⊆ t.auths

variable {s t : State}

theorem Challenged.mono {target : Target} {wwwAuth : WWWAuthenticateBearerRealmService}
    (h : Challenged s target wwwAuth) (hst : Grows s t) : Challenged t target wwwAuth :=
  h.imp fun _ hc => hst.challenges hc

theorem Stored.mono {target : Target} {user pass : List Char} (h : Stored s target user pass)
    (hst : Grows s t) :
    Stored t target user pass :=
  h.imp fun _ hauth => ⟨hst.auths hauth.1, hauth.2⟩

theorem Granted.mono {target : Target} {token : Token} (h : Granted s target token) (hst : Grows s t) :
    Granted t target token :=
  h.imp fun _ hg => ⟨hst.grants hg.1, hg.2⟩

theorem PhaseFits.mono {phase : Phase} (h : PhaseFits s phase) (hst : Grows s t) : PhaseFits t phase := by
  cases phase with
  | challenged target wwwAuth => exact Challenged.mono h hst
  | entering target wwwAuth user pass | waiting target wwwAuth user pass =>
    exact ⟨h.1.mono hst, h.2.mono hst⟩
  | retrieving target wwwAuth user pass =>
    exact ⟨⟨h.1.1.mono hst, h.1.2.mono hst⟩, h.2.imp fun _ hm => hst.sent hm⟩
  | retrying target token => exact Granted.mono h hst
  | idle | checked _ | asked _ | askedAgain _ | ended _ => trivial

theorem Allowed.mono {message : Message} (h : Allowed s message) (hst : Grows s t) : Allowed t message := by
  cases message with
  | get registry repository bearer =>
    cases bearer with
    | none => trivial
    | some bearer => exact h.imp fun _ hg => ⟨hst.grants hg.1, hg.2⟩
  | token realm service scope user pass =>
    obtain ⟨target, hscope, hchallenged, hstored⟩ := h
    exact ⟨target, hscope, hchallenged.mono hst, hstored.mono hst⟩

/-- Nothing new but what is recorded, and what every part of the state says is
borne out by the record. -/
theorem Confined.of_grows (h : Confined s) (hst : Grows s t) (hauth : t.authStore ∈ t.auths)
    (hcache : ∀ key token, t.tokenCache key = some token → s.tokenCache key = some token ∨
      ∃ target, tokenCacheKey target = key ∧ Granted t target token)
    (htasks : ∀ task, t.tasks task = s.tasks task ∨ PhaseFits t (t.tasks task))
    (hgrants : ∀ g ∈ t.grants, g ∈ s.grants ∨ PhaseFits t (.retrieving g.target g.wwwAuth g.user g.pass))
    (hsent : ∀ task message, (task, message) ∈ t.sent → (task, message) ∈ s.sent ∨ Allowed t message) :
    Confined t where
  auth := hauth
  cache key token htoken := by
    rcases hcache key token htoken with hold | hnew
    · exact (h.cache key token hold).imp fun _ hg => ⟨hg.1, hg.2.mono hst⟩
    · exact hnew
  tasks task := by
    rcases htasks task with hold | hnew
    · rw [hold]
      exact (h.tasks task).mono hst
    · exact hnew
  grants g hg := by
    rcases hgrants g hg with hold | hnew
    · exact @PhaseFits.mono _ _ (.retrieving g.target g.wwwAuth g.user g.pass) (h.grants g hold) hst
    · exact hnew
  sent task message hm := by
    rcases hsent task message hm with hold | hnew
    · exact (h.sent task message hold).mono hst
    · exact hnew

theorem goto_tasks (s : State) (task : ℕ) (phase : Phase) (t : ℕ) :
    (s.goto task phase).tasks t = if t = task then phase else s.tasks t := Function.update_apply ..

theorem Confined.goto (h : Confined s) (task : ℕ) (phase : Phase) (hphase : PhaseFits s phase) :
    Confined (s.goto task phase) := by
  have hst : Grows s (s.goto task phase) := ⟨fun _ h => h, fun _ h => h, fun _ h => h, fun _ h => h⟩
  refine h.of_grows hst h.auth (fun _ _ h => .inl h) (fun t => ?_) (fun _ h => .inl h) fun _ _ h => .inl h
  rw [goto_tasks]
  split_ifs
  · exact .inr (hphase.mono hst)
  · exact .inl rfl

theorem Confined.emit (h : Confined s) (task : ℕ) (message : Message) (hm : Allowed s message) :
    Confined (s.emit task message) := by
  have hst : Grows s (s.emit task message) :=
    ⟨fun _ h => List.mem_cons_of_mem _ h, fun _ h => h, fun _ h => h, fun _ h => h⟩
  refine h.of_grows hst h.auth (fun _ _ h => .inl h) (fun _ => .inl rfl) (fun _ h => .inl h)
    fun t m hmem => ?_
  rcases List.mem_cons.mp hmem with heq | hold
  · cases heq
    exact .inr (hm.mono hst)
  · exact .inl hold

theorem Confined.settle (h : Confined s) (task : ℕ) (key : TokenCacheKey) (own : Phase)
    (others : Phase → Phase)
    (hown : PhaseFits s own) (hothers : ∀ phase, phase.waitsFor key → PhaseFits s phase → PhaseFits s (others phase)) :
    Confined (s.settle task key own others) := by
  have hst : Grows s (s.settle task key own others) :=
    ⟨fun _ h => h, fun _ h => h, fun _ h => h, fun _ h => h⟩
  refine h.of_grows hst h.auth (fun _ _ h => .inl h) (fun t => ?_) (fun _ h => .inl h) fun _ _ h => .inl h
  change (if t = task then own else _) = _ ∨ PhaseFits _ (if t = task then own else _)
  split_ifs with ht hwaits
  · exact .inr (hown.mono hst)
  · exact .inr ((hothers _ hwaits (h.tasks t)).mono hst)
  · exact .inl rfl

theorem Confined.afterResponse (h : Confined s) (task : ℕ) (target : Target) (response : Response) :
    Confined (afterResponse s task target response) := by
  rcases afterResponse_cases s task target response with ⟨result, heq⟩ | ⟨wwwAuth, heq⟩
  · rw [heq]
    exact h.goto task _ trivial
  · rw [heq]
    let heard : State := { s with
      challenges := ⟨target, wwwAuth, response.route.origin target.registry⟩ :: s.challenges }
    have hst : Grows s heard :=
      ⟨fun _ h => h, fun _ h => List.mem_cons_of_mem _ h, fun _ h => h, fun _ h => h⟩
    have hheard : Confined heard :=
      h.of_grows hst h.auth (fun _ _ h => .inl h) (fun _ => .inl rfl) (fun _ h => .inl h) fun _ _ h => .inl h
    exact hheard.goto task (.challenged target wwwAuth) ⟨response.route, List.mem_cons_self⟩

theorem Confined.authorize (h : Confined s) {task : ℕ} {target : Target}
    {wwwAuth : WWWAuthenticateBearerRealmService} (hphase : Challenged s target wwwAuth) :
    Confined (authorize s task target wwwAuth) := by
  rcases authorize_cases s task target wwwAuth with ⟨result, heq⟩ | ⟨user, pass, hauth, heq⟩
  · rw [heq]
    exact h.goto task _ trivial
  · rw [heq]
    exact h.goto task _ ⟨hphase, s.authStore, h.auth, hauth⟩

theorem Confined.granted_of_cache (h : Confined s) {target : Target} {token : Token}
    (htoken : s.tokenCache (tokenCacheKey target) = some token) : Granted s target token := by
  obtain ⟨other, hkey, hgranted⟩ := h.cache _ _ htoken
  rw [← tokenCacheKey_inj hkey]
  exact hgranted

theorem Confined.enter (h : Confined s) {task : ℕ} {target : Target}
    {wwwAuth : WWWAuthenticateBearerRealmService}
    {user pass : List Char} (hphase : Challenged s target wwwAuth ∧ Stored s target user pass) :
    Confined (enter s task target wwwAuth user pass) := by
  unfold RegistryAuth.enter
  simp only
  split
  · next htoken => exact h.goto task _ (h.granted_of_cache htoken)
  · exact h.goto task _ hphase
  · have hsent := h.emit task (.token wwwAuth.realm wwwAuth.service (scopeOf target.repository) user pass)
      ⟨target, rfl, hphase⟩
    have hgone := hsent.goto task (.retrieving target wwwAuth user pass)
      ⟨hphase, task, List.mem_cons_self⟩
    exact ⟨hgone.auth, hgone.cache, hgone.tasks, hgone.grants, hgone.sent⟩

theorem Confined.grant (h : Confined s) {task : ℕ} {target : Target}
    {wwwAuth : WWWAuthenticateBearerRealmService}
    {user pass : List Char} (hphase : PhaseFits s (.retrieving target wwwAuth user pass)) (route : Route)
    (json : JsonToken) : Confined (grant s task target wwwAuth user pass route json) := by
  let g : Grant := ⟨json.toToken, target, wwwAuth, user, pass, route⟩
  let u : State := { s with
    tokenCache := Function.update s.tokenCache (tokenCacheKey target) (some json.toToken), grants := g :: s.grants }
  have hst : Grows s u := ⟨fun _ h => h, fun _ h => h, fun _ h => List.mem_cons_of_mem _ h, fun _ h => h⟩
  have hgranted : Granted u target json.toToken := ⟨g, List.mem_cons_self, rfl, rfl⟩
  have hu : Confined u := by
    refine h.of_grows hst h.auth (fun key token htoken => ?_) (fun _ => .inl rfl) (fun g' hg' => ?_)
      fun _ _ h => .inl h
    · rw [show u.tokenCache key = _ from Function.update_apply ..] at htoken
      split_ifs at htoken with hkey
      · cases htoken
        exact .inr ⟨target, hkey.symm, hgranted⟩
      · exact .inl htoken
    · rcases List.mem_cons.mp hg' with rfl | hold
      · exact .inr (hphase.mono hst)
      · exact .inl hold
  refine hu.settle task (tokenCacheKey target) (.retrying target json.toToken)
    (Phase.served json.toToken) hgranted fun phase hwaits hfits => ?_
  cases phase with
  | waiting other _ _ _ =>
    obtain rfl := tokenCacheKey_inj (of_decide_eq_true hwaits)
    exact hgranted
  | _ => cases hwaits

theorem confined_init : Confined init where
  auth := List.mem_singleton_self _
  cache _ _ h := by cases h
  tasks _ := trivial
  grants _ h := absurd h List.not_mem_nil
  sent _ _ h := absurd h List.not_mem_nil

theorem confined_step {event : Event} (h : Confined s) (hstep : step s event = some t) : Confined t := by
  have hphase : ∀ {task phase}, s.tasks task = phase → PhaseFits s phase := fun htask => htask ▸ h.tasks _
  cases moves_of_step hstep with
  | starts _ | refuses _ | stops _ => exact h.goto _ _ trivial
  | @sends task target _ =>
    refine (h.goto task (.asked target) trivial).emit task _ ?_
    cases htoken : s.tokenCache (tokenCacheKey target) with
    | none => trivial
    | some token =>
      obtain ⟨g, hg, rfl, rfl⟩ := h.granted_of_cache htoken
      exact ⟨g, hg, rfl, rfl, rfl⟩
  | @sendsAgain task target token htask =>
    refine (h.goto task (.askedAgain target) trivial).emit task _ ?_
    obtain ⟨g, hg, rfl, rfl⟩ := hphase htask
    exact ⟨g, hg, rfl, rfl, rfl⟩
  | responds _ => exact h.afterResponse _ _ _
  | @respondsAgain task _ response _ =>
    obtain ⟨result, heq⟩ := afterRetry_eq s task response
    rw [heq]
    exact h.goto task _ trivial
  | authorizes htask => exact h.authorize (hphase htask)
  | enters htask => exact h.enter (hphase htask)
  | grants htask => exact h.grant (hphase htask) _ _
  | @settles _ task target _ _ _ _ others _ _ hothers =>
    refine h.settle task _ _ _ trivial fun phase _ hfits => ?_
    rcases hothers with rfl | ⟨e, rfl⟩
    · cases phase with
      | waiting _ _ _ _ => exact hfits
      | _ => exact hfits
    · trivial
  | @expires key =>
    refine ⟨h.auth, fun k token htoken => h.cache k token ?_, h.tasks, h.grants, h.sent⟩
    exact (Option.ite_none_left_eq_some.mp ((Function.update_apply ..).symm.trans htoken)).2
  | @setsAuth auth =>
    have hst : Grows s { s with authStore := auth, auths := auth :: s.auths } :=
      ⟨fun _ h => h, fun _ h => h, fun _ h => h, fun _ h => List.mem_cons_of_mem _ h⟩
    exact h.of_grows hst List.mem_cons_self (fun _ _ h => .inl h) (fun _ => .inl rfl) (fun _ h => .inl h)
      fun _ _ h => .inl h

/-- In every interleaving of calls for any repositories, with servers that
answer and redirect as they like: a bearer token goes only to the registry and
repository that it was got for; it was got by a request for that repository's
scope at a realm that an answer for it had named; and a user name and a password
go only to such a realm, for a registry for which the client was given them. -/
theorem credentials_confined (events : List Event) (s : State) (hrun : events.foldlM step init = some s) :
    (∀ task registry repository bearer, (task, Message.get registry repository (some bearer)) ∈ s.sent →
      ∃ g ∈ s.grants, g.token.token = bearer ∧ g.target.registry = registry ∧
        g.target.repository = repository) ∧
    (∀ g ∈ s.grants, Challenged s g.target g.wwwAuth ∧ Requested s g.target g.wwwAuth g.user g.pass) ∧
    ∀ task realm service scope user pass, (task, Message.token realm service scope user pass) ∈ s.sent →
      ∃ target, scope = scopeOf target.repository ∧ Challenged s target ⟨realm, service⟩ ∧
        Stored s target user pass := by
  have hconfined : Confined s :=
    keeps_of_run (Q := fun _ => True) (fun _ _ _ _ => confined_step) (by simp) confined_init hrun
  refine ⟨fun task registry repository bearer h => hconfined.sent _ _ h, fun g hg => ?_,
    fun task realm service scope user pass h => hconfined.sent _ _ h⟩
  exact ⟨(hconfined.grants g hg).1.1, (hconfined.grants g hg).2⟩

def sampleTarget : Target := ⟨['r'], ['p'], by decide⟩

def sampleChallenge : HeaderValue := headerOf (challenge 0 [realm, service]) (by decide +kernel)

def sampleAuth : AuthMap := fun registry => if registry = ['r'] then some (.userPass ['u'] ['w']) else none

def firstCall : List Event :=
  [.setAuth sampleAuth, .start 0 sampleTarget, .send 0,
    .respond 0 ⟨401, some sampleChallenge, .direct⟩, .authorize 0,
    .enter 0, .grant 0 .direct ⟨['k'], none⟩, .send 0, .start 1 sampleTarget]

theorem token_sent_to_its_repository : ∃ s, firstCall.foldlM step init = some s ∧
    (0, .get ['r'] ['p'] (some ['k'])) ∈ s.sent ∧
    ∃ g ∈ s.grants, g.token.token = ['k'] ∧ g.target.registry = ['r'] ∧ g.target.repository = ['p'] := by
  have hrun : (firstCall.foldlM step init).any
      (fun s => decide ((0, Message.get ['r'] ['p'] (some ['k'])) ∈ s.sent)) = true := by decide +kernel
  obtain ⟨hsome, hsent⟩ := (Option.any_eq_true_iff_get _ _).mp hrun
  exact ⟨_, (Option.some_get hsome).symm, of_decide_eq_true hsent,
    (credentials_confined firstCall _ (Option.some_get hsome).symm).1 0 _ _ _ (of_decide_eq_true hsent)⟩

end Confinement

section Rejection

/-- One call at a time asks for the token of a key, and none while the cache
has one. -/
structure Exclusive (s : State) : Prop where
  owner : ∀ task target wwwAuth user pass, s.tasks task = .retrieving target wwwAuth user pass →
    s.inits (tokenCacheKey target) = some task
  empty : ∀ key task, s.inits key = some task → s.tokenCache key = none

variable {s t : State} {event : Event}

theorem exclusive_init : Exclusive init where
  owner _ _ _ _ _ h := by cases h
  empty _ _ h := by cases h

theorem Exclusive.of_eq (h : Exclusive s) (htasks : t.tasks = s.tasks) (hinits : t.inits = s.inits)
    (hcache : t.tokenCache = s.tokenCache) : Exclusive t := by
  refine ⟨?_, ?_⟩
  · rw [htasks, hinits]
    exact h.owner
  · rw [hinits, hcache]
    exact h.empty

def Phase.retrieves : Phase → Bool
  | .retrieving _ _ _ _ => true
  | _ => false

theorem Exclusive.goto (h : Exclusive s) (task : ℕ) (phase : Phase) (hphase : phase.retrieves = false) :
    Exclusive (s.goto task phase) := by
  refine ⟨fun j target wwwAuth user pass hj => ?_, h.empty⟩
  rw [goto_tasks] at hj
  split_ifs at hj with hjt
  · rw [hj] at hphase
    cases hphase
  · exact h.owner j target wwwAuth user pass hj

theorem Exclusive.settle (h : Exclusive s) {task : ℕ} {target : Target}
    {wwwAuth : WWWAuthenticateBearerRealmService}
    {user pass : List Char} (htask : s.tasks task = .retrieving target wwwAuth user pass) (own : Phase)
    (others : Phase → Phase) (hown : own.retrieves = false)
    (hothers : ∀ phase, phase.waitsFor (tokenCacheKey target) → (others phase).retrieves = false) :
    Exclusive (s.settle task (tokenCacheKey target) own others) := by
  constructor
  · intro j other wwwAuth' user' pass' hj
    change (if j = task then own else _) = _ at hj
    split_ifs at hj with hjt hwaits
    · rw [hj] at hown
      cases hown
    · have hnot := hothers _ hwaits
      rw [hj] at hnot
      cases hnot
    · have howner := h.owner j other wwwAuth' user' pass' hj
      have hne : tokenCacheKey other ≠ tokenCacheKey target := by
        intro hkey
        rw [hkey, h.owner task target wwwAuth user pass htask] at howner
        exact hjt (Option.some.inj howner).symm
      exact (Function.update_of_ne hne ..).trans howner
  · intro key j hj
    rw [show (s.settle task (tokenCacheKey target) own others).inits key = _ from Function.update_apply ..] at hj
    exact h.empty key j (Option.ite_none_left_eq_some.mp hj).2

theorem waitsFor_iff {phase : Phase} {key : TokenCacheKey} (h : phase.waitsFor key) :
    ∃ target wwwAuth user pass, phase = .waiting target wwwAuth user pass ∧ tokenCacheKey target = key := by
  cases phase with
  | waiting target wwwAuth user pass => exact ⟨target, wwwAuth, user, pass, rfl, of_decide_eq_true h⟩
  | _ => cases h

theorem Exclusive.afterResponse (h : Exclusive s) (task : ℕ) (target : Target) (response : Response) :
    Exclusive (afterResponse s task target response) := by
  rcases afterResponse_cases s task target response with ⟨result, heq⟩ | ⟨wwwAuth, heq⟩
  · rw [heq]
    exact h.goto task _ rfl
  · rw [heq]
    exact (h.goto task (.challenged target wwwAuth) rfl).of_eq rfl rfl rfl

theorem Exclusive.enter (h : Exclusive s) (task : ℕ) (target : Target)
    (wwwAuth : WWWAuthenticateBearerRealmService)
    (user pass : List Char) : Exclusive (enter s task target wwwAuth user pass) := by
  unfold RegistryAuth.enter
  simp only
  split
  · exact h.goto task _ rfl
  · exact h.goto task _ rfl
  · next hcache hinits =>
    constructor
    · intro j other wwwAuth' user' pass' hj
      change (Function.update s.tasks task _) j = _ at hj
      rw [Function.update_apply] at hj
      change (Function.update s.inits _ _) _ = _
      rw [Function.update_apply]
      split_ifs at hj with hjt
      · cases hj
        rw [if_pos rfl, hjt]
      · have howner := h.owner j other wwwAuth' user' pass' hj
        rw [if_neg, howner]
        intro hkey
        rw [hkey, hinits] at howner
        cases howner
    · intro key j hj
      change (Function.update s.inits _ _) key = _ at hj
      rw [Function.update_apply] at hj
      split_ifs at hj with hkey
      · rw [hkey]
        exact hcache
      · exact h.empty key j hj

theorem Exclusive.grant (h : Exclusive s) {task : ℕ} {target : Target}
    {wwwAuth : WWWAuthenticateBearerRealmService}
    {user pass : List Char} (htask : s.tasks task = .retrieving target wwwAuth user pass) (route : Route)
    (json : JsonToken) : Exclusive (grant s task target wwwAuth user pass route json) := by
  have hsettled := h.settle htask (.retrying target json.toToken) (Phase.served json.toToken) rfl (by
    intro phase hwaits
    obtain ⟨other, wwwAuth', user', pass', rfl, -⟩ := waitsFor_iff hwaits
    rfl)
  refine ⟨hsettled.owner, fun key j hj => ?_⟩
  change (Function.update s.inits _ none) key = _ at hj
  rw [Function.update_apply] at hj
  obtain ⟨hkey, hj⟩ := Option.ite_none_left_eq_some.mp hj
  exact (Function.update_of_ne hkey ..).trans (h.empty key j hj)

theorem exclusive_step (h : Exclusive s) (hstep : step s event = some t) : Exclusive t := by
  cases moves_of_step hstep with
  | starts _ | refuses _ | stops _ => exact h.goto _ _ rfl
  | @sends task target _ => exact (h.goto task (.asked target) rfl).of_eq rfl rfl rfl
  | @sendsAgain task target _ _ => exact (h.goto task (.askedAgain target) rfl).of_eq rfl rfl rfl
  | responds _ => exact h.afterResponse _ _ _
  | @respondsAgain task _ response _ =>
    obtain ⟨result, heq⟩ := afterRetry_eq s task response
    rw [heq]
    exact h.goto task _ rfl
  | @authorizes task target wwwAuth _ =>
    rcases authorize_cases s task target wwwAuth with ⟨result, heq⟩ | ⟨user, pass, -, heq⟩ <;> rw [heq] <;>
      exact h.goto task _ rfl
  | enters _ => exact h.enter _ _ _ _ _
  | grants htask => exact h.grant htask _ _
  | settles _ htask hothers =>
    refine h.settle htask _ _ rfl fun phase hwaits => ?_
    obtain ⟨other, wwwAuth', user', pass', rfl, -⟩ := waitsFor_iff hwaits
    rcases hothers with rfl | ⟨e, rfl⟩ <;> rfl
  | @expires key =>
    refine ⟨h.owner, fun k j hj => ?_⟩
    change (Function.update s.tokenCache key none) k = none
    rw [Function.update_apply]
    split_ifs
    · rfl
    · exact h.empty k j hj
  | setsAuth => exact h.of_eq rfl rfl rfl

theorem exclusive_of_run {events : List Event} (hrun : events.foldlM step init = some s) : Exclusive s :=
  keeps_of_run (Q := fun _ => True) (fun _ _ _ _ => exclusive_step) (by simp) exclusive_init hrun

/-- The way of a call that the registry has turned down while the cache keeps
the token that it had. -/
def Along (target : Target) (token : Token) : Phase → Prop
  | .asked target' | .challenged target' _ | .entering target' _ _ _ | .askedAgain target' => target' = target
  | .retrying target' token' => target' = target ∧ token' = token
  | .ended _ => True
  | .idle | .checked _ | .retrieving _ _ _ _ | .waiting _ _ _ _ => False

/-- Nobody asks for a token that is in the cache, so that it stays until it is
dropped. -/
theorem cache_step {key : TokenCacheKey} {token : Token} (hs : Exclusive s) (hstep : step s event = some t)
    (hexpire : event ≠ .expire key) (htoken : s.tokenCache key = some token) :
    t.tokenCache key = some token := by
  cases moves_of_step hstep with
  | @expires k =>
    refine (Function.update_of_ne ?_ ..).trans htoken
    rintro rfl
    exact hexpire rfl
  | @grants task target _ _ _ _ _ htask =>
    refine (Function.update_of_ne ?_ ..).trans htoken
    rintro rfl
    rw [hs.empty _ _ (hs.owner _ _ _ _ _ htask)] at htoken
    cases htoken
  | @responds task target response _ =>
    rcases afterResponse_cases s task target response with ⟨result, heq⟩ | ⟨wwwAuth, heq⟩ <;> rw [heq] <;>
      exact htoken
  | @respondsAgain task _ response _ =>
    obtain ⟨result, heq⟩ := afterRetry_eq s task response
    rw [heq]
    exact htoken
  | @authorizes task target wwwAuth _ =>
    rcases authorize_cases s task target wwwAuth with ⟨result, heq⟩ | ⟨user, pass, -, heq⟩ <;> rw [heq] <;>
      exact htoken
  | enters _ =>
    unfold enter
    simp only
    split <;> exact htoken
  | starts _ | refuses _ | stops _ | sends _ | sendsAgain _ | settles _ _ _ | setsAuth => exact htoken

variable {task : ℕ} {target : Target} {token : Token}

theorem along_goto {j : ℕ} (phase : Phase) (hs : Along target token (s.tasks task))
    (hphase : j = task → Along target token phase) : Along target token ((s.goto j phase).tasks task) := by
  rw [goto_tasks]
  split_ifs with hj
  · exact hphase hj.symm
  · exact hs

theorem along_settle {j : ℕ} {other : Target} {wwwAuth : WWWAuthenticateBearerRealmService}
    {user pass : List Char}
    {key : TokenCacheKey} {own : Phase} {others : Phase → Phase} (hs : Along target token (s.tasks task))
    (hj : s.tasks j = .retrieving other wwwAuth user pass) :
    Along target token ((s.settle j key own others).tasks task) := by
  change Along target token (if task = j then own else _)
  split_ifs with htask hwaits
  · rw [htask, hj] at hs
    exact hs.elim
  · obtain ⟨_, _, _, _, hphase, -⟩ := waitsFor_iff hwaits
    rw [hphase] at hs
    exact hs.elim
  · exact hs

theorem along_step (hstep : step s event = some t) (hcache : s.tokenCache (tokenCacheKey target) = some token)
    (hs : Along target token (s.tasks task)) : Along target token (t.tasks task) := by
  have hown : ∀ {j phase}, s.tasks j = phase → j = task → Along target token phase := by
    rintro j phase hj rfl
    exact hj ▸ hs
  cases moves_of_step hstep with
  | starts hj | refuses hj => exact along_goto _ hs fun hjt => (hown hj hjt).elim
  | sends hj => exact along_goto _ hs fun hjt => (hown hj hjt).elim
  | sendsAgain hj => exact along_goto _ hs fun hjt => (hown hj hjt).1
  | stops _ => exact along_goto _ hs fun _ => trivial
  | @responds j other response hj =>
    have hother := hown hj
    rcases afterResponse_cases s j other response with ⟨result, heq⟩ | ⟨wwwAuth, heq⟩
    · rw [heq]
      exact along_goto _ hs fun _ => trivial
    · rw [heq]
      exact along_goto (.challenged other wwwAuth) hs hother
  | @respondsAgain j _ response _ =>
    obtain ⟨result, heq⟩ := afterRetry_eq s j response
    rw [heq]
    exact along_goto _ hs fun _ => trivial
  | @authorizes j other wwwAuth hj =>
    have hother := hown hj
    rcases authorize_cases s j other wwwAuth with ⟨result, heq⟩ | ⟨user, pass, -, heq⟩
    · rw [heq]
      exact along_goto _ hs fun _ => trivial
    · rw [heq]
      exact along_goto _ hs hother
  | @enters j other wwwAuth user pass hj =>
    have hother := hown hj
    unfold enter
    simp only
    split
    · next found =>
      refine along_goto _ hs fun hjt => ?_
      obtain rfl := hother hjt
      exact ⟨rfl, Option.some.inj (found.symm.trans hcache)⟩
    · next found _ =>
      refine along_goto _ hs fun hjt => ?_
      obtain rfl := hother hjt
      cases found.symm.trans hcache
    · next found _ =>
      refine along_goto (.retrieving other wwwAuth user pass) hs fun hjt => ?_
      obtain rfl := hother hjt
      cases found.symm.trans hcache
  | grants hj => exact along_settle hs hj
  | settles _ hj _ => exact along_settle hs hj
  | expires | setsAuth => exact hs

/-- A call sends its request with the token of the cache and is turned down. If
the cache has not dropped the token by the time of the second attempt, that one
carries the same token. -/
theorem rejected_token_sent_again (front middle : List Event) (u v : State) (task : ℕ) (target other : Target)
    (token again : Token) (hu : front.foldlM step init = some u) (hfirst : u.tasks task = .checked target)
    (htoken : u.tokenCache (tokenCacheKey target) = some token)
    (hv : (front ++ .send task :: middle).foldlM step init = some v)
    (hsecond : v.tasks task = .retrying other again)
    (hkept : ∀ event ∈ middle, event ≠ .expire (tokenCacheKey target)) :
    other = target ∧ again = token := by
  obtain ⟨w, hw, hmiddle⟩ := step_of_run hv hu
  have hstart : w.tokenCache (tokenCacheKey target) = some token ∧ Along target token (w.tasks task) := by
    cases moves_of_step hw with
    | sends h =>
      cases hfirst.symm.trans h
      refine ⟨htoken, ?_⟩
      change Along target token ((u.goto task (.asked target)).tasks task)
      rw [goto_tasks, if_pos rfl]
      rfl
    | sendsAgain h => cases hfirst.symm.trans h
    | settles hevent _ _ | stops hevent => rcases hevent with hevent | hevent <;> cases hevent
  have hexclusive : Exclusive w := exclusive_step (exclusive_of_run hu) hw
  have hkeeps := keeps_of_run
    (P := fun s => Exclusive s ∧ s.tokenCache (tokenCacheKey target) = some token ∧ Along target token (s.tasks task))
    (Q := fun e => e ≠ .expire (tokenCacheKey target))
    (fun s e t he hs hstep => ⟨exclusive_step hs.1 hstep, cache_step hs.1 hstep he hs.2.1,
      along_step hstep hs.2.1 hs.2.2⟩)
    hkept ⟨hexclusive, hstart⟩ hmiddle
  have halong := hkeeps.2.2
  rw [hsecond] at halong
  exact halong

def secondCall : List Event := [.respond 1 ⟨401, some sampleChallenge, .direct⟩, .authorize 1, .enter 1]

theorem same_token_after_rejection : ∃ u v other again, firstCall.foldlM step init = some u ∧
    u.tasks 1 = .checked sampleTarget ∧ (firstCall ++ .send 1 :: secondCall).foldlM step init = some v ∧
    v.tasks 1 = .retrying other again ∧ other = sampleTarget ∧ again = ⟨['k'], 60⟩ := by
  have hrun : (firstCall.foldlM step init).any (fun s => decide (s.tasks 1 = .checked sampleTarget ∧
      s.tokenCache (tokenCacheKey sampleTarget) = some ⟨['k'], 60⟩)) = true := by decide +kernel
  have hagain : ((firstCall ++ .send 1 :: secondCall).foldlM step init).any
      (fun s => decide (s.tasks 1 = .retrying sampleTarget ⟨['k'], 60⟩)) = true := by decide +kernel
  obtain ⟨hu, hfirst⟩ := (Option.any_eq_true_iff_get _ _).mp hrun
  obtain ⟨hv, hsecond⟩ := (Option.any_eq_true_iff_get _ _).mp hagain
  obtain ⟨hchecked, htoken⟩ := of_decide_eq_true hfirst
  have hkept : ∀ event ∈ secondCall, event ≠ .expire (tokenCacheKey sampleTarget) := by
    simp [secondCall]
  exact ⟨_, _, _, _, (Option.some_get hu).symm, hchecked, (Option.some_get hv).symm,
    of_decide_eq_true hsecond,
    rejected_token_sent_again firstCall secondCall _ _ 1 sampleTarget sampleTarget _ _ (Option.some_get hu).symm
      hchecked htoken (Option.some_get hv).symm (of_decide_eq_true hsecond) hkept⟩

end Rejection

section Conversations

def sentBy (s : State) (task : ℕ) : List Message := (s.sent.filter fun m => m.1 = task).map Prod.snd

inductive Opening (target : Target) : List Message → Prop where
  | request (bearer : Option (List Char)) : Opening target [.get target.registry target.repository bearer]
  | token (bearer : Option (List Char)) (realm service user pass : List Char) :
    Opening target [.token realm service (scopeOf target.repository) user pass,
      .get target.registry target.repository bearer]

inductive Conversation : List Message → Prop where
  | silent : Conversation []
  | opened {target : Target} {messages : List Message} (h : Opening target messages) : Conversation messages
  | repeated {target : Target} {messages : List Message} (bearer : List Char) (h : Opening target messages) :
    Conversation (.get target.registry target.repository (some bearer) :: messages)

def Said (messages : List Message) : Phase → Prop
  | .idle | .checked _ => messages = []
  | .asked target | .challenged target _ | .entering target _ _ _ | .waiting target _ _ _ =>
    ∃ bearer, messages = [.get target.registry target.repository bearer]
  | .retrieving target _ _ _ | .retrying target _ => Opening target messages
  | .askedAgain _ | .ended _ => Conversation messages

def Conversing (s : State) : Prop := ∀ task, Said (sentBy s task) (s.tasks task)

theorem Said.conversation {messages : List Message} {phase : Phase} (h : Said messages phase) :
    Conversation messages := by
  cases phase with
  | idle | checked _ =>
    rw [show messages = [] from h]
    exact .silent
  | asked _ | challenged _ _ | entering _ _ _ _ | waiting _ _ _ _ =>
    obtain ⟨bearer, rfl⟩ := h
    exact .opened (.request bearer)
  | retrieving _ _ _ _ | retrying _ _ => exact .opened h
  | askedAgain _ | ended _ => exact h

variable {s t : State} {task : ℕ} {phase : Phase}

theorem Conversing.goto (h : Conversing s) (hphase : Said (sentBy s task) phase) :
    Conversing (s.goto task phase) := by
  intro j
  rw [goto_tasks]
  split_ifs with hj
  · subst hj
    exact hphase
  · exact h j

theorem Conversing.emit (h : Conversing s) (phase : Phase) {message : Message}
    (hphase : Said (message :: sentBy s task) phase) :
    Conversing ((s.goto task phase).emit task message) := by
  intro j
  change Said (((task, message) :: s.sent).filter _ |>.map _) ((s.goto task phase).tasks j)
  rw [goto_tasks, List.filter_cons]
  by_cases hj : j = task
  · subst hj
    simpa [sentBy] using hphase
  · simpa [sentBy, hj, Ne.symm hj] using h j

theorem Conversing.settle (h : Conversing s) {key : TokenCacheKey} {others : Phase → Phase}
    (hphase : Said (sentBy s task) phase)
    (hothers : ∀ target wwwAuth user pass bearer,
      Said [.get target.registry target.repository bearer] (others (.waiting target wwwAuth user pass))) :
    Conversing (s.settle task key phase others) := by
  intro j
  change Said (sentBy s j) (if j = task then phase else _)
  split_ifs with hj hwaits
  · subst hj
    exact hphase
  · obtain ⟨target, wwwAuth, user, pass, hwaiting, -⟩ := waitsFor_iff hwaits
    have hsaid := h j
    rw [hwaiting] at hsaid ⊢
    obtain ⟨bearer, hmessages⟩ := hsaid
    rw [hmessages]
    exact hothers target wwwAuth user pass bearer
  · exact h j

theorem conversing_init : Conversing init := fun _ => rfl

theorem conversing_step {event : Event} (h : Conversing s) (hstep : step s event = some t) :
    Conversing t := by
  have hsaid : ∀ {j phase}, s.tasks j = phase → Said (sentBy s j) phase := fun hj => hj ▸ h _
  have hended : ∀ j result, Conversing (s.goto j (.ended result)) := fun j _ => h.goto (h j).conversation
  cases moves_of_step hstep with
  | starts hj =>
    have hsilent := hsaid hj
    exact h.goto hsilent
  | refuses _ | stops _ => exact hended _ _
  | sends hj =>
    have hsilent : sentBy s _ = [] := hsaid hj
    exact h.emit _ ⟨_, congrArg _ hsilent⟩
  | sendsAgain hj => exact h.emit _ (.repeated _ (hsaid hj))
  | @responds j target response hj =>
    have hasked := hsaid hj
    rcases afterResponse_cases s j target response with ⟨result, heq⟩ | ⟨wwwAuth, heq⟩
    · rw [heq]
      exact hended j result
    · rw [heq]
      exact h.goto hasked
  | @respondsAgain j _ response _ =>
    obtain ⟨result, heq⟩ := afterRetry_eq s j response
    rw [heq]
    exact hended j result
  | @authorizes j target wwwAuth hj =>
    have hasked := hsaid hj
    rcases authorize_cases s j target wwwAuth with ⟨result, heq⟩ | ⟨user, pass, -, heq⟩
    · rw [heq]
      exact hended j result
    · rw [heq]
      exact h.goto hasked
  | enters hj =>
    obtain ⟨bearer, hmessages⟩ := hsaid hj
    unfold enter
    simp only
    split
    · refine h.goto ?_
      rw [hmessages]
      exact .request bearer
    · exact h.goto ⟨bearer, hmessages⟩
    · refine h.emit (.retrieving ..) ?_
      rw [hmessages]
      exact .token bearer ..
  | grants hj =>
    have hopening := hsaid hj
    exact h.settle hopening fun _ _ _ _ bearer => .request bearer
  | settles _ _ hothers =>
    refine h.settle (h _).conversation fun target wwwAuth user pass bearer => ?_
    rcases hothers with rfl | ⟨e, rfl⟩
    · exact ⟨bearer, rfl⟩
    · exact .opened (@Opening.request target bearer)
  | expires | setsAuth => exact h

/-- Whatever the servers answer, a call sends its request, at most one request
for a token of that repository, and then the request at most once more. -/
theorem call_sends_at_most_three (events : List Event) (s : State) (hrun : events.foldlM step init = some s)
    (task : ℕ) : Conversation (sentBy s task) := by
  have hconversing : Conversing s :=
    keeps_of_run (Q := fun _ => True) (fun _ _ _ _ => conversing_step) (by simp) conversing_init hrun
  exact (hconversing task).conversation

theorem first_call_sends_three : ∃ s, firstCall.foldlM step init = some s ∧ (sentBy s 0).length = 3 ∧
    Conversation (sentBy s 0) := by
  have hrun : (firstCall.foldlM step init).any (fun s => decide ((sentBy s 0).length = 3)) = true := by
    decide +kernel
  obtain ⟨hsome, hlength⟩ := (Option.any_eq_true_iff_get _ _).mp hrun
  exact ⟨_, (Option.some_get hsome).symm, of_decide_eq_true hlength,
    call_sends_at_most_three firstCall _ (Option.some_get hsome).symm 0⟩

end Conversations

end ProgramExplorer.RegistryAuth
