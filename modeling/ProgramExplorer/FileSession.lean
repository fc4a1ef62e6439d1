import ProgramExplorer.FileSystem
import ProgramExplorer.StateRules

/-!
# One process at work on a file

A session has the disk, the one file it writes, and the bytes that its writers
hold back. Each call may fail, a write after any number of bytes. Every state
that the disk passes through is kept, since the process may end in any of
them, together with whether the file had got its final name by then.
-/

set_option autoImplicit false

namespace ProgramExplorer.FileSession
open ByteStrings ByteStore FileSystem StateRules

variable {Name ε α : Type}

structure Session (Name : Type) where
  fs : Fs Name
  /-- How the calls go: `some k` for one that fails, after `k` bytes if it writes. -/
  env : ℕ → Option ℕ
  history : List (Bool × Fs Name)
  published : Bool
  armed : Bool
  inode : ℕ
  pos : ℕ
  /-- What a buffered writer has taken and not passed on. -/
  buf : Bytes
  /-- What an asynchronous file has taken and not written. -/
  pending : Bytes

def Session.start (fs : Fs Name) (env : ℕ → Option ℕ) : Session Name :=
  ⟨fs, env, [], false, false, 0, 0, [], []⟩

abbrev Sys (Name ε α : Type) := EStateM ε (Session Name) α

def Session.record (s : Session Name) (fs : Fs Name) : Session Name :=
  { s with fs := fs, history := (s.published, fs) :: s.history }

def Session.fault (s : Session Name) : Option ℕ := s.env s.history.length

def call (e : ε) (op : Fs Name → Option (α × Fs Name)) : Sys Name ε α := fun s =>
  match s.fault, op s.fs with
  | none, some (a, fs) => .ok a (s.record fs)
  | _, _ => .error e (s.record s.fs)

def Session.wrote (s : Session Name) (bs : Bytes) : Session Name :=
  { s.record (s.fs.put s.inode (overwrite (s.fs.contents s.inode) s.pos bs)) with
    pos := s.pos + bs.length }

def fileWriteAll (e : ε) (bs : Bytes) : Sys Name ε Unit := fun s =>
  if bs = [] then .ok () s
  else
    match s.fault with
    | none => .ok () (s.wrote bs)
    | some k => .error e (s.wrote (bs.take k))

def fileSeek (pos : ℕ) : Sys Name ε Unit := modify fun s => { s with pos := pos }

def fileLen (e : ε) : Sys Name ε ℕ := do
  let s ← get
  call e fun fs => some ((fs.contents s.inode).length, fs)

def resized (data : Bytes) (len : ℕ) : Bytes := data.take len ++ List.replicate (len - data.length) 0

def fileTruncate (e : ε) (len : ℕ) : Sys Name ε Unit := do
  let s ← get
  call e fun fs => some ((), fs.put s.inode (resized (fs.contents s.inode) len))

section Buffered

def bufFlush (e : ε) : Sys Name ε Unit := fun s =>
  match fileWriteAll e s.buf s with
  | .ok _ t => .ok () { t with buf := [] }
  | .error e t => .error e { t with buf := s.buf.drop (t.pos - s.pos) }

def bufHold (bs : Bytes) : Sys Name ε Unit := modify fun s => { s with buf := s.buf ++ bs }

def bufMakeRoom (capacity : ℕ) (e : ε) (bs : Bytes) : Sys Name ε Unit := do
  let s ← get
  if bs.length > capacity - s.buf.length then bufFlush e else pure ()

def bufWriteAllCold (capacity : ℕ) (e : ε) (bs : Bytes) : Sys Name ε Unit := do
  bufMakeRoom capacity e bs
  if bs.length ≥ capacity then fileWriteAll e bs else bufHold bs

def bufWriteAll (capacity : ℕ) (e : ε) (bs : Bytes) : Sys Name ε Unit := do
  let s ← get
  if bs.length < capacity - s.buf.length then bufHold bs else bufWriteAllCold capacity e bs

def dropBuf (s : Session Name) : Session Name := stateAfter (bufFlush () s)

end Buffered

section Asynchronous

def asyncSettle (e : ε) : Sys Name ε Unit := fun s =>
  match fileWriteAll e s.pending s with
  | .ok _ t => .ok () { t with pending := [] }
  | .error e t => .error e { t with pending := [] }

def asyncWriteAll (e : ε) (bs : Bytes) : Sys Name ε Unit := do
  asyncSettle e
  modify fun s => { s with pending := bs }

def asyncBufFlushBuf (e : ε) : Sys Name ε Unit := do
  let s ← get
  asyncWriteAll e s.buf
  modify fun s => { s with buf := [] }

def asyncBufMakeRoom (capacity : ℕ) (e : ε) (bs : Bytes) : Sys Name ε Unit := do
  let s ← get
  if s.buf.length + bs.length > capacity then asyncBufFlushBuf e else pure ()

def asyncBufWriteAll (capacity : ℕ) (e : ε) (bs : Bytes) : Sys Name ε Unit := do
  asyncBufMakeRoom capacity e bs
  if bs.length ≥ capacity then asyncWriteAll e bs else bufHold bs

def asyncBufFlush (e : ε) : Sys Name ε Unit := do
  asyncBufFlushBuf e
  asyncSettle e

end Asynchronous

section Held

def Quiet (s : Session Name) : Prop := s.published = false ∧ ∀ r ∈ s.history, r.1 = false

structure Named (tmp : Name) (contents : Bytes) (s : Session Name) : Prop where
  quiet : Quiet s
  entry : s.fs.entries tmp = some s.inode
  contents : s.fs.contents s.inode = contents

/-- Where the bytes are that the session has been given: in the file, on the
way to it, and in the buffer. -/
structure Holding (tmp : Name) (written pending buf : Bytes) (s : Session Name) : Prop extends
    Named tmp written s where
  pos : s.pos = written.length
  pending : s.pending = pending
  buf : s.buf = buf

variable {tmp : Name} {written pending buf : Bytes} {e : ε}

theorem Quiet.record {s : Session Name} (h : Quiet s) (fs : Fs Name) : Quiet (s.record fs) :=
  ⟨h.1, List.forall_mem_cons.mpr ⟨h.1, h.2⟩⟩

theorem overwrite_end (data bs : Bytes) : overwrite data data.length bs = data ++ bs := by
  unfold overwrite
  split_ifs with h
  · rw [h, List.append_nil]
  · simp

theorem Holding.wrote {s : Session Name} (h : Holding tmp written pending buf s) (bs : Bytes) :
    Holding tmp (written ++ bs) pending buf (s.wrote bs) := by
  refine ⟨⟨h.quiet.record _, h.entry, ?_⟩, ?_, h.pending, h.buf⟩
  · simp only [Session.wrote, Session.record, put_contents, h.contents, h.pos, overwrite_end]
  · simp only [Session.wrote, h.pos, List.length_append]

theorem triple_fileWriteAll (bs : Bytes) :
    Triple (Holding tmp written pending buf) (fileWriteAll e bs)
      (fun _ => Holding tmp (written ++ bs) pending buf) (fun _ => Quiet) := by
  intro s hs
  unfold fileWriteAll
  by_cases hbs : bs = []
  · subst hbs
    simpa using hs
  · rw [if_neg hbs]
    cases s.fault with
    | none => exact hs.wrote bs
    | some k => exact (hs.wrote (bs.take k)).quiet

theorem triple_fileWriteAt {contents : Bytes} (off : ℕ) (bs : Bytes) :
    Triple (Named tmp contents) (do fileSeek off; fileWriteAll e bs : Sys Name ε Unit)
      (fun _ => Named tmp (overwrite contents off bs)) (fun _ => Quiet) := by
  refine triple_bind (Q := fun _ s => Named tmp contents s ∧ s.pos = off) ?_ fun _ => ?_
  · exact fun s hs => ⟨⟨hs.quiet, hs.entry, hs.contents⟩, rfl⟩
  rintro s ⟨hs, rfl⟩
  unfold fileWriteAll
  by_cases hbs : bs = []
  · subst hbs
    simpa [overwrite] using hs
  · rw [if_neg hbs]
    cases s.fault with
    | none =>
      refine ⟨hs.quiet.record _, hs.entry, ?_⟩
      simp only [Session.wrote, Session.record, put_contents, hs.contents]
    | some k => exact hs.quiet.record _

theorem triple_bufFlush :
    Triple (Holding tmp written pending buf) (bufFlush e)
      (fun _ => Holding tmp (written ++ buf) pending []) (fun _ => Quiet) := by
  intro s hs
  have hwrite := triple_fileWriteAll (e := e) buf s hs
  rw [← hs.buf] at hwrite
  unfold bufFlush
  cases hrun : fileWriteAll e s.buf s with
  | ok u t =>
    rw [hrun] at hwrite
    rw [hs.buf] at hwrite
    exact { hwrite with buf := rfl }
  | error e' t =>
    rw [hrun] at hwrite
    exact hwrite

/-- What a buffered writer does with one more piece: the bytes it has passed
on, and those it holds. -/
def bufStep (capacity : ℕ) (state : Bytes × Bytes) (bs : Bytes) : Bytes × Bytes :=
  if bs.length < capacity - state.2.length then (state.1, state.2 ++ bs)
  else
    let state := if bs.length > capacity - state.2.length then (state.1 ++ state.2, []) else state
    if bs.length ≥ capacity then (state.1 ++ bs, state.2) else (state.1, state.2 ++ bs)

theorem bufStep_append (capacity : ℕ) (state : Bytes × Bytes) (bs : Bytes) :
    (bufStep capacity state bs).1 ++ (bufStep capacity state bs).2 = state.1 ++ state.2 ++ bs := by
  unfold bufStep
  by_cases hfits : bs.length < capacity - state.2.length
  · simp [hfits]
  by_cases hfull : bs.length > capacity - state.2.length
  · by_cases hbig : bs.length ≥ capacity <;> simp [hfits, hfull, hbig]
  · by_cases hbig : bs.length ≥ capacity
    · have hempty : state.2 = [] ∨ bs = [] := by
        rw [← List.length_eq_zero_iff, ← List.length_eq_zero_iff]
        omega
      simp only [hfits, hfull, hbig, if_true, if_false]
      rcases hempty with hnil | hnil <;> simp [hnil]
    · simp [hfits, hfull, hbig]

theorem foldl_bufStep_append (capacity : ℕ) (pieces : List Bytes) (state : Bytes × Bytes) :
    (pieces.foldl (bufStep capacity) state).1 ++ (pieces.foldl (bufStep capacity) state).2 =
      state.1 ++ state.2 ++ pieces.flatten := by
  induction pieces generalizing state with
  | nil => simp
  | cons bs pieces ih => rw [List.foldl_cons, ih, bufStep_append, List.flatten_cons, List.append_assoc]

theorem bufStep_held {capacity : ℕ} (hcapacity : 0 < capacity) (state : Bytes × Bytes) {bs : Bytes}
    (h : bs ≠ [] ∨ state.2 ≠ []) : (bufStep capacity state bs).2 = [] ↔ capacity ≤ bs.length := by
  unfold bufStep
  by_cases hbig : capacity ≤ bs.length
  · have hfits : ¬ bs.length < capacity - state.2.length := by omega
    by_cases hfull : bs.length > capacity - state.2.length
    · simp [hfits, hfull, hbig]
    · have hnil : state.2 = [] := List.length_eq_zero_iff.mp (by omega)
      simp only [hfits, hfull, hbig, if_true, if_false, iff_true]
      exact hnil
  · by_cases hfits : bs.length < capacity - state.2.length
    · simp only [hfits, if_true, hbig, iff_false, List.append_eq_nil_iff]
      tauto
    · by_cases hfull : bs.length > capacity - state.2.length
      · have hbs : bs ≠ [] := fun hnil => by simp [hnil] at hfull
        simp [hfits, hfull, hbig, hbs]
      · simp only [hfits, if_false, hfull, hbig, iff_false, List.append_eq_nil_iff]
        tauto

theorem triple_bufHold (bs : Bytes) :
    Triple (Holding tmp written pending buf) (bufHold bs : Sys Name ε Unit)
      (fun _ => Holding tmp written pending (buf ++ bs)) (fun _ => Quiet) :=
  fun _ hs => { hs with buf := congrArg (· ++ bs) hs.buf }

theorem triple_bufMakeRoom (capacity : ℕ) (bs : Bytes) :
    Triple (Holding tmp written pending buf) (bufMakeRoom capacity e bs)
      (fun _ s => if bs.length > capacity - buf.length then Holding tmp (written ++ buf) pending [] s
        else Holding tmp written pending buf s) (fun _ => Quiet) := by
  refine triple_bind triple_get fun t => ?_
  rintro s ⟨hs, rfl⟩
  simp only [hs.buf]
  split_ifs with hfull
  · exact triple_bufFlush t hs
  · exact hs

theorem triple_bufWriteAll (capacity : ℕ) (bs : Bytes) :
    Triple (Holding tmp written pending buf) (bufWriteAll capacity e bs)
      (fun _ => Holding tmp (bufStep capacity (written, buf) bs).1 pending
        (bufStep capacity (written, buf) bs).2) (fun _ => Quiet) := by
  refine triple_bind triple_get fun t => ?_
  rintro s ⟨hs, rfl⟩
  simp only [hs.buf, bufStep]
  by_cases hfits : bs.length < capacity - buf.length
  · simp only [hfits, if_true]
    exact triple_bufHold (ε := ε) bs t hs
  · simp only [hfits, if_false]
    refine triple_bind (triple_bufMakeRoom capacity bs) (fun _ => ?_) t hs
    intro u hu
    by_cases hfull : bs.length > capacity - buf.length
    · simp only [hfull, if_true] at hu ⊢
      split_ifs
      · exact triple_fileWriteAll bs u hu
      · exact triple_bufHold (ε := ε) bs u hu
    · simp only [hfull, if_false] at hu ⊢
      split_ifs
      · exact triple_fileWriteAll bs u hu
      · exact triple_bufHold (ε := ε) bs u hu

theorem triple_asyncSettle :
    Triple (Holding tmp written pending buf) (asyncSettle e)
      (fun _ => Holding tmp (written ++ pending) [] buf) (fun _ => Quiet) := by
  intro s hs
  have hwrite := triple_fileWriteAll (e := e) pending s hs
  rw [← hs.pending] at hwrite
  unfold asyncSettle
  cases hrun : fileWriteAll e s.pending s with
  | ok u t =>
    rw [hrun, hs.pending] at hwrite
    exact { hwrite with pending := rfl }
  | error e' t =>
    rw [hrun] at hwrite
    exact hwrite

theorem triple_asyncWriteAll (bs : Bytes) :
    Triple (Holding tmp written pending buf) (asyncWriteAll e bs)
      (fun _ => Holding tmp (written ++ pending) bs buf) (fun _ => Quiet) :=
  triple_bind triple_asyncSettle fun _ _ hs => { hs with pending := rfl }

theorem triple_asyncBufFlushBuf :
    Triple (Holding tmp written pending buf) (asyncBufFlushBuf e)
      (fun _ => Holding tmp (written ++ pending) buf []) (fun _ => Quiet) := by
  refine triple_bind triple_get fun t => ?_
  rintro s ⟨hs, rfl⟩
  rw [hs.buf]
  refine triple_bind (triple_asyncWriteAll buf) (fun _ => ?_) t hs
  exact fun _ hs => { hs with buf := rfl }

def Holds (tmp : Name) (all : Bytes) (s : Session Name) : Prop :=
  ∃ written pending buf, written ++ (pending ++ buf) = all ∧ Holding tmp written pending buf s

theorem Holds.quiet {all : Bytes} {s : Session Name} (h : Holds tmp all s) : Quiet s := by
  obtain ⟨_, _, _, _, hs⟩ := h
  exact hs.quiet

theorem triple_asyncBufMakeRoom (capacity : ℕ) (all bs : Bytes) :
    Triple (Holds tmp all) (asyncBufMakeRoom capacity e bs)
      (fun _ s => ∃ written pending buf, written ++ (pending ++ buf) = all ∧
        (bs.length ≥ capacity → buf = []) ∧ Holding tmp written pending buf s) (fun _ => Quiet) := by
  rintro s ⟨written, pending, buf, rfl, hs⟩
  refine triple_bind triple_get (fun t => ?_) s hs
  rintro u ⟨hu, rfl⟩
  rw [hu.buf]
  split_ifs with hfull
  · refine triple_conseq triple_asyncBufFlushBuf (fun _ h => h) (fun _ v hv => ?_) t hu
    exact ⟨_, _, _, by simp, fun _ => rfl, hv⟩
  · exact ⟨_, _, _, rfl, fun hbig => List.length_eq_zero_iff.mp (by omega), hu⟩

theorem triple_asyncBufWriteAll (capacity : ℕ) (all bs : Bytes) :
    Triple (Holds tmp all) (asyncBufWriteAll capacity e bs)
      (fun _ => Holds tmp (all ++ bs)) (fun _ => Quiet) := by
  refine triple_bind (triple_asyncBufMakeRoom capacity all bs) fun _ => ?_
  rintro s ⟨written, pending, buf, rfl, hempty, hs⟩
  split_ifs with hbig
  · have hnil := hempty hbig
    subst hnil
    refine triple_conseq (triple_asyncWriteAll bs) (fun _ h => h) (fun _ t ht => ?_) s hs
    exact ⟨_, _, _, by simp, ht⟩
  · have hheld : Holding tmp written pending (buf ++ bs) { s with buf := s.buf ++ bs } :=
      triple_bufHold (ε := ε) bs s hs
    exact ⟨_, _, _, by simp, hheld⟩

theorem triple_asyncBufFlush (all : Bytes) :
    Triple (Holds tmp all) (asyncBufFlush e) (fun _ => Holding tmp all [] []) (fun _ => Quiet) := by
  rintro s ⟨written, pending, buf, rfl, hs⟩
  rw [← List.append_assoc]
  exact triple_bind triple_asyncBufFlushBuf (fun _ => triple_asyncSettle) s hs

end Held

section Seen

/-- The file has got its final name with the contents `first`, and is seen
with `P` at every moment from then on. -/
structure Shown (final : Name) (first : Bytes) (P : Bytes → Prop) (s : Session Name) : Prop where
  published : s.published = true
  armed : s.armed = false
  seen : ∃ fs, (true, fs) ∈ s.history ∧ fs.read final = some first
  all : ∀ fs, (true, fs) ∈ s.history → ∃ x, P x ∧ fs.read final = some x

def Complete (final : Name) (full : Bytes) (s : Session Name) : Prop :=
  ∀ fs, (true, fs) ∈ s.history → fs.read final = some full

structure Open (final : Name) (contents : Bytes) (s : Session Name) : Prop where
  entry : s.fs.entries final = some s.inode
  contents : s.fs.contents s.inode = contents

variable {final : Name} {first full contents : Bytes} {P : Bytes → Prop} {s : Session Name} {e : ε}

theorem Quiet.complete (h : Quiet s) : Complete final full s := fun fs hfs =>
  absurd (h.2 _ hfs) (by simp)

/-- Whole from the first moment is whole at all moments, if the file does not
change once it is whole. -/
theorem complete_iff (h : Quiet s ∨ Shown final first P s) (hP : first = full → ∀ x, P x → x = full) :
    Complete final full s ↔ (s.published = true → first = full) := by
  rcases h with hquiet | hshown
  · simp [hquiet.complete, hquiet.1]
  · constructor
    · intro hcomplete _
      obtain ⟨fs, hfs, hread⟩ := hshown.seen
      exact Option.some.inj (hread.symm.trans (hcomplete fs hfs))
    · intro hfirst fs hfs
      obtain ⟨x, hx, hread⟩ := hshown.all fs hfs
      rw [hread, hP (hfirst hshown.published) x hx]

theorem Shown.mono {Q : Bytes → Prop} (h : Shown final first P s) (hPQ : ∀ x, P x → Q x) :
    Shown final first Q s :=
  { h with all := fun fs hfs => (h.all fs hfs).imp fun x hx => ⟨hPQ x hx.1, hx.2⟩ }

theorem Shown.same {t : Session Name} (h : Shown final first P s) (hpublished : t.published = s.published)
    (harmed : t.armed = s.armed) (hhistory : t.history = s.history) : Shown final first P t :=
  ⟨hpublished.trans h.published, harmed.trans h.armed, hhistory ▸ h.seen, hhistory ▸ h.all⟩

theorem Shown.record (h : Shown final first P s) {fs : Fs Name} {x : Bytes} (hx : P x)
    (hread : fs.read final = some x) : Shown final first P (s.record fs) := by
  obtain ⟨fs₀, hmem, hfs₀⟩ := h.seen
  refine ⟨h.published, h.armed, ⟨fs₀, List.mem_cons_of_mem _ hmem, hfs₀⟩, ?_⟩
  intro fs' hfs'
  rcases List.mem_cons.mp hfs' with heq | hold
  · obtain ⟨-, rfl⟩ := Prod.mk.inj heq
    exact ⟨x, hx, hread⟩
  · exact h.all fs' hold

theorem Open.read (h : Open final contents s) : s.fs.read final = some contents := by
  rw [read_of_entry h.entry, h.contents]

theorem Open.wrote (h : Open final contents s) (hpos : s.pos = contents.length) (bs : Bytes) :
    Open final (contents ++ bs) (s.wrote bs) := by
  refine ⟨h.entry, ?_⟩
  simp only [Session.wrote, Session.record, put_contents, h.contents, hpos, overwrite_end]

theorem quiet_fileWriteAll (h : Quiet s) (bs : Bytes) : Quiet (stateAfter (fileWriteAll e bs s)) := by
  unfold fileWriteAll
  split_ifs
  · exact h
  · cases s.fault with
    | none => exact h.record _
    | some k => exact h.record _

theorem quiet_dropBuf (h : Quiet s) : Quiet (dropBuf s) := by
  have hwrite := quiet_fileWriteAll (e := ()) h s.buf
  unfold dropBuf bufFlush
  cases hrun : fileWriteAll () s.buf s <;> rw [hrun] at hwrite <;> exact hwrite

theorem shown_dropBuf (h : Shown final contents (· = contents) s) (hopen : Open final contents s)
    (hpos : s.pos = contents.length) :
    Shown final contents (fun x => ∃ t, t <+: s.buf ∧ x = contents ++ t) (dropBuf s) := by
  have hmono : Shown final contents (fun x => ∃ t, t <+: s.buf ∧ x = contents ++ t) s :=
    h.mono fun x hx => ⟨[], List.nil_prefix, by rw [hx, List.append_nil]⟩
  have hwrote : ∀ bs, bs <+: s.buf →
      Shown final contents (fun x => ∃ t, t <+: s.buf ∧ x = contents ++ t) (s.wrote bs) := fun bs hbs =>
    (hmono.record ⟨bs, hbs, rfl⟩ (hopen.wrote hpos bs).read).same rfl rfl rfl
  unfold dropBuf bufFlush fileWriteAll
  split_ifs
  · exact hmono.same rfl rfl rfl
  · cases s.fault with
    | none => exact (hwrote s.buf List.prefix_rfl).same rfl rfl rfl
    | some k => exact (hwrote (s.buf.take k) (List.take_prefix k _)).same rfl rfl rfl

theorem triple_call {R : Session Name → Prop} {op : Fs Name → Option (α × Fs Name)}
    {Q : α → Session Name → Prop} {E : ε → Session Name → Prop}
    (hok : ∀ s, R s → ∀ a fs, op s.fs = some (a, fs) → Q a (s.record fs))
    (herror : ∀ s, R s → E e (s.record s.fs)) : Triple R (call e op) Q E := by
  intro s hs
  unfold call
  cases s.fault with
  | some k => exact herror s hs
  | none =>
    cases hop : op s.fs with
    | none => exact herror s hs
    | some r => exact hok s hs r.1 r.2 hop

theorem triple_shown_fileLen (hP : P contents) :
    Triple (fun s => Shown final first P s ∧ Open final contents s) (fileLen e)
      (fun n s => (Shown final first P s ∧ Open final contents s) ∧ n = contents.length)
      (fun _ => Shown final first P) := by
  refine triple_bind triple_get fun t => triple_call ?_ ?_
  · rintro s ⟨⟨hs, hopen⟩, rfl⟩ n fs heq
    cases heq
    exact ⟨⟨hs.record hP hopen.read, hopen.entry, hopen.contents⟩, congrArg List.length hopen.contents⟩
  · rintro s ⟨⟨hs, hopen⟩, -⟩
    exact hs.record hP hopen.read

theorem triple_shown_fileTruncate {len : ℕ} (hP : P contents) (hP' : P (resized contents len)) :
    Triple (fun s => Shown final first P s ∧ Open final contents s) (fileTruncate e len)
      (fun _ s => Shown final first P s ∧ Open final (resized contents len) s)
      (fun _ => Shown final first P) := by
  refine triple_bind triple_get fun t => triple_call ?_ ?_
  · rintro s ⟨⟨hs, hopen⟩, rfl⟩ u fs heq
    cases heq
    have hopen' : Open final (resized contents len)
        (t.record (t.fs.put t.inode (resized (t.fs.contents t.inode) len))) :=
      ⟨hopen.entry, by simp only [Session.record, put_contents, hopen.contents]⟩
    exact ⟨hs.record hP' hopen'.read, hopen'⟩
  · rintro s ⟨⟨hs, hopen⟩, -⟩
    exact hs.record hP hopen.read

end Seen

section Names

variable [DecidableEq Name]

def fileRename (e : ε) (a b : Name) : Sys Name ε Unit := fun s =>
  match s.fault, s.fs.rename a b with
  | none, some fs => .ok () (Session.record { s with published := true } fs)
  | _, _ => .error e (s.record s.fs)

def dropName (a : Name) (s : Session Name) : Session Name :=
  stateAfter (call () (fun fs => (fs.unlink a).map fun fs => ((), fs)) s)

theorem triple_fileRename {tmp final : Name} {written buf : Bytes} {pos : ℕ} {e : ε} :
    Triple (fun s => Named tmp written s ∧ s.armed = false ∧ s.pos = pos ∧ s.buf = buf)
      (fileRename e tmp final)
      (fun _ s => Shown final written (· = written) s ∧ Open final written s ∧ s.pos = pos ∧ s.buf = buf)
      (fun _ => Quiet) := by
  rintro s ⟨hs, harmed, hpos, hbuf⟩
  unfold fileRename
  cases s.fault with
  | some k => exact hs.quiet.record _
  | none =>
    cases hfs : s.fs.rename tmp final with
    | none => exact hs.quiet.record _
    | some fs =>
      obtain ⟨hentry, hcontents⟩ := rename_eq_some hs.entry hfs
      have hopen : Open final written (Session.record { s with published := true } fs) :=
        ⟨hentry, (congrFun hcontents s.inode).trans hs.contents⟩
      refine ⟨⟨rfl, harmed, ⟨fs, List.mem_cons_self, hopen.read⟩, ?_⟩, hopen, hpos, hbuf⟩
      intro fs' hfs'
      rcases List.mem_cons.mp hfs' with heq | hold
      · obtain ⟨-, rfl⟩ := Prod.mk.inj heq
        exact ⟨written, rfl, hopen.read⟩
      · exact absurd (hs.quiet.2 _ hold) (by simp)

theorem quiet_dropName {s : Session Name} (h : Quiet s) (a : Name) : Quiet (dropName a s) := by
  unfold dropName call
  split <;> exact h.record _

end Names

end ProgramExplorer.FileSession
