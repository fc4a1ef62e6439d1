import ProgramExplorer.StateRules

/-!
# The block device of a guest

`VhostUserService` of `pevub/src/main.rs` answers the descriptor chains that a
guest has put in the queue of a block device. The guest chooses every address,
length and flag. An error of `process_item` is answered with a length of one
and without a status byte; what the backend unwraps stops it.

A chain is what the queue yields for one entry of the available ring. What the
crates vm-memory and virtio-queue answer for a guest is a parameter: which
accesses to its memory succeed and which heads its ring of used chains takes.
-/

set_option autoImplicit false

namespace ProgramExplorer.VhostBlock
open StateRules

section Model

/-- Whether `read_obj` or `write_obj` of so many bytes, `get_slice` and `add_used` succeed. -/
structure Guest where
  hasObj : UInt64 → ℕ → Bool
  hasSlice : UInt64 → UInt32 → Bool
  takesUsed : UInt16 → Bool

structure Descriptor where
  addr : UInt64
  len : UInt32
  flags : UInt16
  deriving DecidableEq

def Descriptor.hasNext (d : Descriptor) : Bool := d.flags &&& 1 ≠ 0

def Descriptor.isWriteOnly (d : Descriptor) : Bool := d.flags &&& 2 ≠ 0

structure VirtioBlockHeader where
  type : UInt32
  ioprio : UInt32
  sector : UInt64
  deriving DecidableEq

/-- The descriptors of a chain, and the header that is in memory when the first one is read. -/
structure DescriptorChain where
  headIndex : UInt16
  descs : List Descriptor
  header : VirtioBlockHeader

inductive Error where
  | noHead
  | needRead
  | needWrite
  | noStatus
  | mem
  | statusDescTooSmall
  deriving DecidableEq, Repr

inductive Panic where
  | writeStatus
  | getSlice
  | totalLen
  | addUsed
  deriving DecidableEq, Repr

inductive Event where
  | data (addr : UInt64) (len : UInt32)
  | status (addr : UInt64) (status : UInt8)
  | used (headIndex : UInt16) (len : UInt32)
  deriving DecidableEq, Repr

structure ProcessItemResponse where
  status : UInt8
  statusAddr : UInt64
  len : UInt32

def virtioBlkTIn : UInt32 := 0

def ProcessItemResponse.ok (len : UInt32) (statusDesc : Descriptor) : ProcessItemResponse :=
  ⟨0, statusDesc.addr, len⟩

def ProcessItemResponse.unsupp (statusDesc : Descriptor) : ProcessItemResponse := ⟨2, statusDesc.addr, 1⟩

def collect : List Descriptor → List Descriptor → Option Descriptor →
    Except Error (List Descriptor × Option Descriptor)
  | [], requests, statusDesc => .ok (requests, statusDesc)
  | desc :: descs, requests, statusDesc =>
    if desc.isWriteOnly = false then .error .needWrite
    else if desc.hasNext then collect descs (requests ++ [desc]) statusDesc
    else collect descs requests (some desc)

/-- What `process_item` has found out about a chain before it serves it. -/
inductive Plan where
  | unsupp (statusDesc : Descriptor)
  | read (requests : List Descriptor) (statusDesc : Descriptor)
  deriving DecidableEq

variable (guest : Guest)

def descriptors (chain : DescriptorChain) : Except Error (List Descriptor × Descriptor) :=
  match chain.descs with
  | [] => .error .noHead
  | headDesc :: descs => do
    if headDesc.isWriteOnly then .error .needRead
    else if guest.hasObj headDesc.addr 16 = false then .error .mem
    else do
      let (requests, statusDesc) ← collect descs [] none
      pure (requests, ← okOr statusDesc .noStatus)

def plan (chain : DescriptorChain) : Except Error Plan := do
  let (requests, statusDesc) ← descriptors guest chain
  if chain.header.type ≠ virtioBlkTIn then pure (.unsupp statusDesc)
  else if statusDesc.len < 1 then .error .statusDescTooSmall
  else pure (.read requests statusDesc)

def serve (totalLen : UInt32) (desc : Descriptor) : EStateM Panic (List Event) UInt32 := do
  require (guest.hasSlice desc.addr desc.len = true) .getSlice
  modify (· ++ [.data desc.addr desc.len])
  require (totalLen.toNat + desc.len.toNat < 2 ^ 32) .totalLen
  pure (totalLen + desc.len)

def processItem (chain : DescriptorChain) :
    EStateM Panic (List Event) (Except Error ProcessItemResponse) :=
  match plan guest chain with
  | .error e => pure (.error e)
  | .ok (.unsupp statusDesc) => pure (.ok (.unsupp statusDesc))
  | .ok (.read requests statusDesc) => do
    let totalLen ← requests.foldlM (serve guest) 0
    pure (.ok (.ok totalLen statusDesc))

def addUsed (headIndex : UInt16) (len : UInt32) : EStateM Panic (List Event) Unit := do
  require (guest.takesUsed headIndex = true) .addUsed
  modify (· ++ [.used headIndex len])

def writeStatus (response : ProcessItemResponse) : EStateM Panic (List Event) Unit := do
  require (guest.hasObj response.statusAddr 1 = true) .writeStatus
  modify (· ++ [.status response.statusAddr response.status])

def processChain (chain : DescriptorChain) : EStateM Panic (List Event) Unit := do
  match ← processItem guest chain with
  | .ok response => do
    writeStatus guest response
    addUsed guest chain.headIndex response.len
  | .error _ => addUsed guest chain.headIndex 1

def processNext (_usedAny : Bool) (chain : DescriptorChain) : EStateM Panic (List Event) Bool := do
  processChain guest chain
  pure true

def processQueue (chains : List DescriptorChain) : EStateM Panic (List Event) Bool :=
  chains.foldlM (processNext guest) false

end Model

section Rounds

variable {guest : Guest} {chain : DescriptorChain} {chains : List DescriptorChain}
  {requests : List Descriptor} {statusDesc : Descriptor} {trace trace' : List Event}

def Descriptor.written (d : Descriptor) : Event := .data d.addr d.len

def lengthSum (requests : List Descriptor) : ℕ := (requests.map fun d => d.len.toNat).sum

def totalLen (requests : List Descriptor) (start : UInt32) : UInt32 :=
  requests.foldl (fun n d => n + d.len) start

theorem serve_eq_ok {start n : UInt32} {desc : Descriptor} :
    serve guest start desc trace = .ok n trace' ↔
      guest.hasSlice desc.addr desc.len = true ∧ start.toNat + desc.len.toNat < 2 ^ 32 ∧
        n = start + desc.len ∧ trace' = trace ++ [desc.written] := by
  simp only [serve, bind_eq_ok, require_eq_ok, modify_eq_ok, pure_eq_ok]
  constructor
  · rintro ⟨-, -, ⟨hslice, rfl⟩, -, -, rfl, -, -, ⟨hsum, rfl⟩, rfl, rfl⟩
    exact ⟨hslice, hsum, rfl, rfl⟩
  · rintro ⟨hslice, hsum, rfl, rfl⟩
    exact ⟨(), _, ⟨hslice, rfl⟩, (), _, rfl, (), _, ⟨hsum, rfl⟩, rfl, rfl⟩

theorem toNat_add_of_lt {a b : UInt32} (h : a.toNat + b.toNat < 2 ^ 32) :
    (a + b).toNat = a.toNat + b.toNat := by
  rw [UInt32.toNat_add, Nat.mod_eq_of_lt h]

/-- The loop goes through if every request lies in one region and the sum fits. -/
theorem foldlM_serve_eq_ok {start n : UInt32} :
    requests.foldlM (serve guest) start trace = .ok n trace' ↔
      (∀ d ∈ requests, guest.hasSlice d.addr d.len = true) ∧ start.toNat + lengthSum requests < 2 ^ 32 ∧
        n = totalLen requests start ∧ trace' = trace ++ requests.map Descriptor.written := by
  induction requests generalizing start trace with
  | nil =>
    rw [List.foldlM_nil, pure_eq_ok]
    have hlt := start.toNat_lt
    simp [lengthSum, totalLen, hlt]
  | cons desc requests ih =>
    rw [List.foldlM_cons, bind_eq_ok]
    simp only [serve_eq_ok, ih, List.forall_mem_cons, lengthSum, List.map_cons, List.sum_cons, totalLen,
      List.foldl_cons]
    constructor
    · rintro ⟨-, -, ⟨hslice, hlt, rfl, rfl⟩, hslices, hsum, rfl, rfl⟩
      rw [toNat_add_of_lt hlt] at hsum
      exact ⟨⟨hslice, hslices⟩, by omega, rfl, by simp⟩
    · rintro ⟨⟨hslice, hslices⟩, hsum, rfl, rfl⟩
      have hlt : start.toNat + desc.len.toNat < 2 ^ 32 := by omega
      refine ⟨_, _, ⟨hslice, hlt, rfl, rfl⟩, hslices, ?_, rfl, by simp⟩
      rw [toNat_add_of_lt hlt]
      omega

structure InMemory (guest : Guest) (chain : DescriptorChain) : Prop where
  unsupp : ∀ statusDesc, plan guest chain = .ok (.unsupp statusDesc) → guest.hasObj statusDesc.addr 1 = true
  status : ∀ requests statusDesc, plan guest chain = .ok (.read requests statusDesc) →
    guest.hasObj statusDesc.addr 1 = true
  data : ∀ requests statusDesc, plan guest chain = .ok (.read requests statusDesc) →
    ∀ d ∈ requests, guest.hasSlice d.addr d.len = true
  sum : ∀ requests statusDesc, plan guest chain = .ok (.read requests statusDesc) →
    lengthSum requests < 2 ^ 32

def answer (guest : Guest) (chain : DescriptorChain) : List Event :=
  match plan guest chain with
  | .error _ => [.used chain.headIndex 1]
  | .ok (.unsupp statusDesc) => [.status statusDesc.addr 2, .used chain.headIndex 1]
  | .ok (.read requests statusDesc) => requests.map Descriptor.written ++
      [.status statusDesc.addr 0, .used chain.headIndex (totalLen requests 0)]

theorem addUsed_eq_ok {headIndex : UInt16} {len : UInt32} {u : Unit} :
    addUsed guest headIndex len trace = .ok u trace' ↔
      guest.takesUsed headIndex = true ∧ trace' = trace ++ [.used headIndex len] :=
  require_modify_eq_ok

theorem writeStatus_eq_ok {response : ProcessItemResponse} {u : Unit} :
    writeStatus guest response trace = .ok u trace' ↔ guest.hasObj response.statusAddr 1 = true ∧
      trace' = trace ++ [.status response.statusAddr response.status] :=
  require_modify_eq_ok

theorem processItem_read (hplan : plan guest chain = .ok (.read requests statusDesc))
    {r : Except Error ProcessItemResponse} :
    processItem guest chain trace = .ok r trace' ↔
      (∀ d ∈ requests, guest.hasSlice d.addr d.len = true) ∧ lengthSum requests < 2 ^ 32 ∧
        r = .ok (.ok (totalLen requests 0) statusDesc) ∧
        trace' = trace ++ requests.map Descriptor.written := by
  rw [processItem, hplan]
  simp only [bind_eq_ok, pure_eq_ok, foldlM_serve_eq_ok]
  constructor
  · rintro ⟨-, -, ⟨hdata, hsum, rfl, rfl⟩, rfl, rfl⟩
    exact ⟨hdata, by simpa using hsum, rfl, rfl⟩
  · rintro ⟨hdata, hsum, rfl, rfl⟩
    exact ⟨_, _, ⟨hdata, by simpa using hsum, rfl, rfl⟩, rfl, rfl⟩

theorem respond_eq_ok {response : ProcessItemResponse} {headIndex : UInt16} {u : Unit} :
    (do writeStatus guest response; addUsed guest headIndex response.len :
      EStateM Panic (List Event) Unit) trace = .ok u trace' ↔
      guest.hasObj response.statusAddr 1 = true ∧ guest.takesUsed headIndex = true ∧
        trace' = trace ++ [.status response.statusAddr response.status, .used headIndex response.len] := by
  simp only [bind_eq_ok, writeStatus_eq_ok, addUsed_eq_ok]
  constructor
  · rintro ⟨-, -, ⟨hmem, rfl⟩, hhead, rfl⟩
    exact ⟨hmem, hhead, by simp⟩
  · rintro ⟨hmem, hhead, rfl⟩
    exact ⟨(), _, ⟨hmem, rfl⟩, hhead, by simp⟩

theorem processChain_eq_ok {u : Unit} :
    processChain guest chain trace = .ok u trace' ↔
      guest.takesUsed chain.headIndex = true ∧ InMemory guest chain ∧
        trace' = trace ++ answer guest chain := by
  unfold answer
  cases hplan : plan guest chain with
  | error e =>
    have hmem : InMemory guest chain := by constructor <;> simp [hplan]
    have hrun : processChain guest chain trace = addUsed guest chain.headIndex 1 trace := by
      rw [processChain, processItem, hplan]
      rfl
    rw [hrun, addUsed_eq_ok]
    exact and_congr_right fun _ => (and_iff_right hmem).symm
  | ok p =>
    cases p with
    | unsupp statusDesc =>
      have hmem : InMemory guest chain ↔ guest.hasObj statusDesc.addr 1 = true := by
        constructor
        · intro h
          exact h.unsupp statusDesc hplan
        · intro h
          constructor <;> simp [hplan, h]
      have hrun : processChain guest chain trace =
          (do writeStatus guest (.unsupp statusDesc); addUsed guest chain.headIndex 1 :
            EStateM Panic (List Event) Unit) trace := by
        rw [processChain, processItem, hplan]
        rfl
      rw [hrun, hmem]
      exact respond_eq_ok.trans and_left_comm
    | read requests statusDesc =>
      have hmem : InMemory guest chain ↔ guest.hasObj statusDesc.addr 1 = true ∧
          (∀ d ∈ requests, guest.hasSlice d.addr d.len = true) ∧ lengthSum requests < 2 ^ 32 := by
        constructor
        · intro h
          exact ⟨h.status _ _ hplan, h.data _ _ hplan, h.sum _ _ hplan⟩
        · rintro ⟨hstatus, hdata, hsum⟩
          constructor <;> simp_all
      rw [processChain, bind_eq_ok, hmem]
      simp only [processItem_read hplan]
      constructor
      · rintro ⟨-, -, ⟨hdata, hsum, rfl, rfl⟩, hend⟩
        obtain ⟨hstatus, hhead, rfl⟩ := respond_eq_ok.mp hend
        exact ⟨hhead, ⟨hstatus, hdata, hsum⟩, List.append_assoc ..⟩
      · rintro ⟨hhead, ⟨hstatus, hdata, hsum⟩, rfl⟩
        refine ⟨_, _, ⟨hdata, hsum, rfl, rfl⟩, respond_eq_ok.mpr ⟨hstatus, hhead, ?_⟩⟩
        exact (List.append_assoc ..).symm

theorem foldlM_processNext_eq_ok {start any : Bool} :
    chains.foldlM (processNext guest) start trace = .ok any trace' ↔
      (∀ chain ∈ chains, guest.takesUsed chain.headIndex = true ∧ InMemory guest chain) ∧
        any = (start || !chains.isEmpty) ∧ trace' = trace ++ chains.flatMap (answer guest) := by
  induction chains generalizing trace start with
  | nil =>
    rw [List.foldlM_nil, pure_eq_ok]
    simp
  | cons chain chains ih =>
    rw [List.foldlM_cons, bind_eq_ok]
    simp only [processNext, bind_eq_ok, pure_eq_ok, processChain_eq_ok, ih, List.forall_mem_cons,
      List.flatMap_cons]
    constructor
    · rintro ⟨-, -, ⟨-, -, ⟨hhead, hmem, rfl⟩, rfl, rfl⟩, hrest, rfl, rfl⟩
      exact ⟨⟨⟨hhead, hmem⟩, hrest⟩, by simp, by simp⟩
    · rintro ⟨⟨⟨hhead, hmem⟩, hrest⟩, rfl, rfl⟩
      exact ⟨true, _, ⟨(), _, ⟨hhead, hmem, rfl⟩, rfl, rfl⟩, hrest, by simp, by simp⟩

/-- A run ends if every chain is in range and its parts are in memory. -/
theorem processQueue_eq_ok {any : Bool} :
    processQueue guest chains trace = .ok any trace' ↔
      (∀ chain ∈ chains, guest.takesUsed chain.headIndex = true ∧ InMemory guest chain) ∧
        any = (false || !chains.isEmpty) ∧ trace' = trace ++ chains.flatMap (answer guest) :=
  foldlM_processNext_eq_ok

end Rounds

section Guests

variable (guest : Guest)

/-- The chain ends in a status descriptor that the backend can write to. -/
def HasStatus (chain : DescriptorChain) (statusDesc : Descriptor) : Prop :=
  chain.descs.tail.getLast? = some statusDesc ∧ statusDesc.hasNext = false ∧
    statusDesc.isWriteOnly = true ∧ 1 ≤ statusDesc.len ∧ guest.hasObj statusDesc.addr 1 = true

def Event.isUsed : Event → Bool
  | .used _ _ => true
  | _ => false

/-- The head of a chain is returned once, and its status byte is written before that. -/
structure Answered (chain : DescriptorChain) (segment : List Event) : Prop where
  used : ∃ front len, segment = front ++ [.used chain.headIndex len] ∧ ∀ e ∈ front, e.isUsed = false
  status : ∀ statusDesc, HasStatus guest chain statusDesc →
    ∃ status, .status statusDesc.addr status ∈ segment

structure Survives (chains : List DescriptorChain) : Prop where
  returns : ∃ any trace, processQueue guest chains [] = .ok any trace
  answered : ∀ front chain back, chains = front ++ chain :: back → ∃ any trace any' segment,
    processQueue guest front [] = .ok any trace ∧
      processQueue guest (front ++ [chain]) [] = .ok any' (trace ++ segment) ∧
      Answered guest chain segment

/-- The status descriptor that `process_item` finds: the last one without a successor. -/
def statusOf (chain : DescriptorChain) : Option Descriptor :=
  (chain.descs.tail.filter fun d => !d.hasNext).getLast?

def requestsOf (chain : DescriptorChain) : List Descriptor :=
  chain.descs.tail.filter Descriptor.hasNext

/-- The head can be read, its header is in memory, and all that follows can be written. -/
def Readable (chain : DescriptorChain) : Prop :=
  ∃ headDesc descs, chain.descs = headDesc :: descs ∧ headDesc.isWriteOnly = false ∧
    guest.hasObj headDesc.addr 16 = true ∧ ∀ d ∈ descs, d.isWriteOnly = true

/-- The chain gets as far as a read of the disk. -/
structure IsRead (chain : DescriptorChain) (statusDesc : Descriptor) : Prop where
  readable : Readable guest chain
  status : statusOf chain = some statusDesc
  type : chain.header.type = virtioBlkTIn
  len : 1 ≤ statusDesc.len

structure Harmless (chain : DescriptorChain) : Prop where
  head : guest.takesUsed chain.headIndex = true
  unsupp : Readable guest chain → chain.header.type ≠ virtioBlkTIn → ∀ statusDesc,
    statusOf chain = some statusDesc → guest.hasObj statusDesc.addr 1 = true
  status : ∀ statusDesc, IsRead guest chain statusDesc → guest.hasObj statusDesc.addr 1 = true
  data : ∀ statusDesc, IsRead guest chain statusDesc →
    ∀ d ∈ requestsOf chain, guest.hasSlice d.addr d.len = true
  sum : ∀ statusDesc, IsRead guest chain statusDesc → lengthSum (requestsOf chain) < 2 ^ 32
  readable : ∀ statusDesc, HasStatus guest chain statusDesc → Readable guest chain

variable {guest} {chain : DescriptorChain} {chains : List DescriptorChain} {statusDesc : Descriptor}

/-- The loop over the descriptors after the head. -/
theorem collect_eq (descs requests : List Descriptor) (acc : Option Descriptor) :
    collect descs requests acc =
      if ∀ d ∈ descs, d.isWriteOnly = true then
        .ok (requests ++ descs.filter Descriptor.hasNext, (descs.filter fun d => !d.hasNext).getLast?.or acc)
      else .error .needWrite := by
  induction descs generalizing requests acc with
  | nil => simp [collect]
  | cons desc descs ih =>
    rw [collect]
    cases hwrite : desc.isWriteOnly with
    | false => simp [hwrite]
    | true =>
      cases hnext : desc.hasNext with
      | true => simp [ih, hwrite, hnext]
      | false => simp [ih, hwrite, hnext, List.getLast?_cons, Option.or_some]

theorem descriptors_eq_ok {requests : List Descriptor} :
    descriptors guest chain = .ok (requests, statusDesc) ↔
      Readable guest chain ∧ statusOf chain = some statusDesc ∧ requestsOf chain = requests := by
  unfold descriptors Readable statusOf requestsOf
  cases chain.descs with
  | nil => simp
  | cons headDesc descs =>
    cases hwrite : headDesc.isWriteOnly with
    | true => simp [hwrite]
    | false =>
      cases hobj : guest.hasObj headDesc.addr 16 with
      | false => simp [hwrite, hobj]
      | true =>
        by_cases hall : ∀ d ∈ descs, d.isWriteOnly = true
        · cases hstatus : (descs.filter fun d => !d.hasNext).getLast? with
          | none => simp [hwrite, hobj, collect_eq, if_pos hall, hstatus, okOr, bind, Except.bind]
          | some d =>
            simp only [hwrite, hobj, collect_eq, if_pos hall, hstatus, okOr, bind, Except.bind,
              pure, Except.pure]
            simp [hwrite, hobj, hstatus, and_comm, iff_true_intro hall]
        · simp [hwrite, hobj, collect_eq, hall, bind, Except.bind]

theorem plan_eq_ok {p : Plan} : plan guest chain = .ok p ↔
    ∃ statusDesc, Readable guest chain ∧ statusOf chain = some statusDesc ∧
      ((chain.header.type ≠ virtioBlkTIn ∧ p = .unsupp statusDesc) ∨
        chain.header.type = virtioBlkTIn ∧ 1 ≤ statusDesc.len ∧ p = .read (requestsOf chain) statusDesc) := by
  rw [plan, except_bind_eq_ok]
  constructor
  · rintro ⟨⟨requests, statusDesc⟩, hdescs, h⟩
    obtain ⟨hread, hstatus, rfl⟩ := descriptors_eq_ok.mp hdescs
    refine ⟨statusDesc, hread, hstatus, ?_⟩
    dsimp only at h
    by_cases htype : chain.header.type ≠ virtioBlkTIn
    · rw [if_pos htype] at h
      exact .inl ⟨htype, except_pure_eq_ok.mp h⟩
    · rw [if_neg htype] at h
      split_ifs at h with hlen
      exact .inr ⟨not_ne_iff.mp htype, UInt32.not_lt.mp hlen, except_pure_eq_ok.mp h⟩
  · rintro ⟨statusDesc, hread, hstatus, h⟩
    refine ⟨(requestsOf chain, statusDesc), descriptors_eq_ok.mpr ⟨hread, hstatus, rfl⟩, ?_⟩
    dsimp only
    rcases h with ⟨htype, rfl⟩ | ⟨htype, hlen, rfl⟩
    · rw [if_pos htype]
      rfl
    · rw [if_neg (not_ne_iff.mpr htype), if_neg (UInt32.not_lt.mpr hlen)]
      rfl

theorem statusOf_of_hasStatus (h : HasStatus guest chain statusDesc) : statusOf chain = some statusDesc := by
  obtain ⟨hlast, hnext, -⟩ := h
  obtain ⟨front, hfront⟩ := List.getLast?_eq_some_iff.mp hlast
  simp [statusOf, hfront, hnext]

theorem isRead_iff {requests : List Descriptor} :
    plan guest chain = .ok (.read requests statusDesc) ↔
      IsRead guest chain statusDesc ∧ requests = requestsOf chain := by
  rw [plan_eq_ok]
  constructor
  · rintro ⟨found, hread, hstatus, ⟨-, h⟩ | ⟨htype, hlen, h⟩⟩
    · cases h
    · cases h
      exact ⟨⟨hread, hstatus, htype, hlen⟩, rfl⟩
  · rintro ⟨⟨hread, hstatus, htype, hlen⟩, rfl⟩
    exact ⟨statusDesc, hread, hstatus, .inr ⟨htype, hlen, rfl⟩⟩

theorem isUnsupp_iff : plan guest chain = .ok (.unsupp statusDesc) ↔
    Readable guest chain ∧ chain.header.type ≠ virtioBlkTIn ∧ statusOf chain = some statusDesc := by
  rw [plan_eq_ok]
  constructor
  · rintro ⟨found, hread, hstatus, ⟨htype, h⟩ | ⟨-, -, h⟩⟩
    · cases h
      exact ⟨hread, htype, hstatus⟩
    · cases h
  · rintro ⟨hread, htype, hstatus⟩
    exact ⟨statusDesc, hread, hstatus, .inl ⟨htype, rfl⟩⟩

theorem planned_iff (h : HasStatus guest chain statusDesc) :
    (∃ p, plan guest chain = .ok p) ↔ Readable guest chain := by
  constructor
  · rintro ⟨p, hplan⟩
    obtain ⟨-, hread, -⟩ := plan_eq_ok.mp hplan
    exact hread
  · intro hread
    have hstatus := statusOf_of_hasStatus h
    by_cases htype : chain.header.type = virtioBlkTIn
    · exact ⟨_, isRead_iff.mpr ⟨⟨hread, hstatus, htype, h.2.2.2.1⟩, rfl⟩⟩
    · exact ⟨_, isUnsupp_iff.mpr ⟨hread, htype, hstatus⟩⟩

theorem harmless_iff : Harmless guest chain ↔ guest.takesUsed chain.headIndex = true ∧
    InMemory guest chain ∧ ∀ statusDesc, HasStatus guest chain statusDesc →
      ∃ p, plan guest chain = .ok p := by
  constructor
  · intro h
    refine ⟨h.head, ⟨fun d hd => ?_, fun _ d hd => ?_, fun _ d hd => ?_, fun _ d hd => ?_⟩,
      fun d hd => (planned_iff hd).mpr (h.readable d hd)⟩
    · obtain ⟨hread, htype, hstatus⟩ := isUnsupp_iff.mp hd
      exact h.unsupp hread htype d hstatus
    · exact h.status d (isRead_iff.mp hd).1
    · obtain ⟨hread, rfl⟩ := isRead_iff.mp hd
      exact h.data d hread
    · obtain ⟨hread, rfl⟩ := isRead_iff.mp hd
      exact h.sum d hread
  · rintro ⟨hhead, hmem, hplan⟩
    refine ⟨hhead, fun hread htype d hstatus => hmem.unsupp d (isUnsupp_iff.mpr ⟨hread, htype, hstatus⟩),
      fun d hd => hmem.status _ d (isRead_iff.mpr ⟨hd, rfl⟩),
      fun d hd => hmem.data _ d (isRead_iff.mpr ⟨hd, rfl⟩),
      fun d hd => hmem.sum _ d (isRead_iff.mpr ⟨hd, rfl⟩),
      fun d hd => (planned_iff hd).mp (hplan d hd)⟩

/-- The plan for a chain with a status descriptor is to write to it. -/
theorem status_mem_answer {p : Plan} (h : plan guest chain = .ok p)
    (hstatus : HasStatus guest chain statusDesc) :
    ∃ status, .status statusDesc.addr status ∈ answer guest chain := by
  obtain ⟨found, -, hfound, hp⟩ := plan_eq_ok.mp h
  cases hfound.symm.trans (statusOf_of_hasStatus hstatus)
  rw [answer, h]
  rcases hp with ⟨-, rfl⟩ | ⟨-, -, rfl⟩
  · exact ⟨2, by simp⟩
  · exact ⟨0, by simp⟩

theorem isUsed_written {requests : List Descriptor} {e : Event} (h : e ∈ requests.map Descriptor.written) :
    e.isUsed = false := by
  obtain ⟨d, -, rfl⟩ := List.mem_map.mp h
  rfl

theorem answer_used (guest : Guest) (chain : DescriptorChain) :
    ∃ front len, answer guest chain = front ++ [.used chain.headIndex len] ∧
      ∀ e ∈ front, e.isUsed = false := by
  unfold answer
  split
  · exact ⟨[], 1, rfl, by simp⟩
  · exact ⟨[_], 1, rfl, by simp [Event.isUsed]⟩
  · rename_i requests statusDesc hplan
    refine ⟨requests.map Descriptor.written ++ [.status statusDesc.addr 0],
      totalLen requests 0, by simp, ?_⟩
    intro e he
    rcases List.mem_append.mp he with he | he
    · exact isUsed_written he
    · cases List.mem_singleton.mp he
      rfl

theorem not_status_of_error {e : Error} (hplan : plan guest chain = .error e) (addr : UInt64)
    (status : UInt8) :
    .status addr status ∉ answer guest chain := by
  rw [answer, hplan]
  simp

/-- The backend survives exactly the chains that are harmless. -/
theorem survives_iff :
    Survives guest chains ↔ ∀ chain ∈ chains, Harmless guest chain := by
  constructor
  · intro h chain hchain
    obtain ⟨any, trace, hrun⟩ := h.returns
    obtain ⟨hhead, hmem⟩ := (processQueue_eq_ok.mp hrun).1 chain hchain
    refine harmless_iff.mpr ⟨hhead, hmem, fun statusDesc hstatus => ?_⟩
    obtain ⟨front, back, hsplit⟩ := List.append_of_mem hchain
    obtain ⟨_, trace, _, segment, hfront, hnext, hanswered⟩ := h.answered front chain back hsplit
    obtain ⟨-, -, hsegment⟩ := processQueue_eq_ok.mp hnext
    rw [(processQueue_eq_ok.mp hfront).2.2] at hsegment
    have hanswer : segment = answer guest chain := by simpa using hsegment
    obtain ⟨status, hmem⟩ := hanswered.status statusDesc hstatus
    rw [hanswer] at hmem
    cases hplan : plan guest chain with
    | error e => exact absurd hmem (not_status_of_error hplan _ _)
    | ok p => exact ⟨p, rfl⟩
  · intro h
    have hsafe : ∀ chain ∈ chains, guest.takesUsed chain.headIndex = true ∧ InMemory guest chain :=
      fun chain hc =>
      ⟨(h chain hc).head, (harmless_iff.mp (h chain hc)).2.1⟩
    refine ⟨⟨_, _, processQueue_eq_ok.mpr ⟨hsafe, rfl, rfl⟩⟩, fun front chain back hsplit => ?_⟩
    have hfront : ∀ c ∈ front ++ [chain], c ∈ chains := by
      intro c hc
      rw [hsplit, List.append_cons]
      exact List.mem_append_left _ hc
    refine ⟨_, front.flatMap (answer guest), _, answer guest chain, processQueue_eq_ok.mpr ⟨?_, rfl, rfl⟩,
      processQueue_eq_ok.mpr ⟨?_, rfl, ?_⟩, answer_used guest chain, ?_⟩
    · exact fun c hc => hsafe c (hfront c (List.mem_append_left _ hc))
    · exact fun c hc => hsafe c (hfront c hc)
    · simp
    · intro statusDesc hstatus
      obtain ⟨p, hplan⟩ := (harmless_iff.mp (h chain (hfront chain (by simp)))).2.2 statusDesc hstatus
      exact status_mem_answer hplan hstatus

/-- One page of memory and a queue of 1024. -/
def page : Guest where
  hasObj := fun addr count => addr.toNat + count ≤ 4096
  hasSlice := fun addr len => addr.toNat + len.toNat ≤ 4096
  takesUsed := fun headIndex => headIndex < 1024

def header : VirtioBlockHeader := ⟨virtioBlkTIn, 0, 0⟩

def headDesc : Descriptor := ⟨0, 16, 1⟩

def dataDesc : Descriptor := ⟨512, 512, 3⟩

def lastDesc : Descriptor := ⟨2048, 1, 2⟩

def wildStatus : DescriptorChain := ⟨0, [headDesc, dataDesc, ⟨4096, 1, 2⟩], header⟩

def wildData : DescriptorChain := ⟨0, [headDesc, ⟨4000, 512, 3⟩, lastDesc], header⟩

def strayHead : DescriptorChain := ⟨1024, [], header⟩

/-- A data descriptor that the backend may only read, before a status descriptor. -/
def readableData : DescriptorChain := ⟨0, [headDesc, ⟨512, 512, 1⟩, lastDesc], header⟩

theorem not_survives_of_panic {p : Panic} (h : result (processQueue guest chains []) = .error p) :
    ¬ Survives guest chains := by
  intro hs
  obtain ⟨any, trace, hrun⟩ := hs.returns
  rw [hrun] at h
  cases h

/-- Three chains that stop the backend and one that gets no status byte. -/
theorem guest_stops_backend :
    ¬ Survives page [wildStatus] ∧ ¬ Survives page [wildData] ∧
      ¬ Survives page [strayHead] ∧ ¬ Survives page [readableData] := by
  refine ⟨not_survives_of_panic (p := .writeStatus) (by decide +kernel),
    not_survives_of_panic (p := .getSlice) (by decide +kernel),
    not_survives_of_panic (p := .addUsed) (by decide +kernel), fun h => ?_⟩
  have hstatus : HasStatus page readableData lastDesc :=
    ⟨rfl, by decide, by decide, by decide, by decide +kernel⟩
  obtain ⟨_, trace, _, segment, hfront, hnext, hanswered⟩ := h.answered [] readableData [] rfl
  obtain ⟨status, hmem⟩ := hanswered.status lastDesc hstatus
  cases hfront
  have htrace : stateAfter (processQueue page [readableData] []) = [.used 0 1] := by decide +kernel
  rw [show processQueue page [readableData] [] = _ from hnext] at htrace
  have hsegment : segment = [.used 0 1] := htrace
  rw [hsegment] at hmem
  simp at hmem

end Guests

end ProgramExplorer.VhostBlock
