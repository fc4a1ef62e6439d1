import ProgramExplorer.ErofsDecoding

/-!
# Well-formed cluster tables

The notes at the head of `peerofs/src/disk.rs` say what a table of logical
cluster indices means: the span of a head or of a plain entry goes to the next
such entry, or to the end of the file. On a table that is well formed the loop
writes exactly that, unless it comes to an entry it cannot end: one at the
end of the table that holds data, a plain one over several clusters, or one
before a second head. The table has an entry for each cluster, but the loop
reads one for each block; the two counts are the same where a cluster is a
block or the file has no more than one.
-/

set_option autoImplicit false

namespace ProgramExplorer.ErofsClusterTables
open ByteStrings ByteStore StateRules InputLoop ErofsDisk ErofsReader ErofsAddresses
open ErofsCompressed ErofsDecoding

section Meaning

def isStart (c : LogicalClusterIndex) : Bool := c.typ = .head1 || c.typ = .plain

/-- The first entry from `i` on where a span begins, or the end of the table. -/
def nextStart (lcis : List LogicalClusterIndex) (i : ℕ) : ℕ := i + (lcis.drop i).findIdx isStart

def spanStop (x : Decoding) (i : ℕ) : ℕ :=
  (x.lcis[nextStart x.lcis i]?.map (logicalAddr x.blockLen (nextStart x.lcis i))).getD x.fileSize

/-- The bytes of a span, from the block that the entry names. -/
def storedSpan (x : Decoding) (c : LogicalClusterIndex) (len : ℕ) : Option Bytes :=
  if c.typ = .head1 then
    (slice? x.fs.data (blockStart x.fs c.blockAddr) (blockStart x.fs c.blockAddr + x.blockLen)).bind
      fun data => x.dec.run data len
  else slice? x.fs.data (blockStart x.fs c.blockAddr) (blockStart x.fs c.blockAddr + len)

def entryBytes (x : Decoding) (i : ℕ) (c : LogicalClusterIndex) : Bytes :=
  if isStart c then (storedSpan x c (spanStop x (i + 1) - logicalAddr x.blockLen i c)).getD [] else []

def decodedFrom (x : Decoding) (i : ℕ) : Bytes :=
  ((x.lcis.drop i).zipIdx i).flatMap fun (c, k) => entryBytes x k c

structure WellFormed (x : Decoding) : Prop where
  length : x.lcis.length = countOf x.fileSize x.blockLen
  first : ∀ c, x.lcis[0]? = some c → isStart c ∧ logicalAddr x.blockLen 0 c = 0
  increasing : ∀ (i j : ℕ) (c d : LogicalClusterIndex), i < j → x.lcis[i]? = some c →
    x.lcis[j]? = some d → isStart c → isStart d → logicalAddr x.blockLen i c < logicalAddr x.blockLen j d
  delta : ∀ (i : ℕ) (c : LogicalClusterIndex), x.lcis[i]? = some c → c.typ = .nonHead →
    i + c.delta.2.toNat = nextStart x.lcis (i + 1)
  plain : ∀ (i : ℕ) (c : LogicalClusterIndex), x.lcis[i]? = some c → c.typ = .plain →
    spanStop x (i + 1) ≤ logicalAddr x.blockLen i c + x.blockLen
  block : ∀ (i : ℕ) (c : LogicalClusterIndex), x.lcis[i]? = some c → isStart c →
    blockStart x.fs c.blockAddr + x.blockLen ≤ x.fs.data.length

def Full (dec : Decompressor) : Prop := ∀ src n, ∃ out, dec.run src n = some out ∧ out.length = n

inductive Served (x : Decoding) (i : ℕ) (c : LogicalClusterIndex) : Prop
  | head {next : LogicalClusterIndex} (htyp : c.typ = .head1) (hnext : x.lcis[i + 1]? = some next)
      (hne : next.typ ≠ .head2)
      (hle : x.lcis[nextStart x.lcis (i + 1)]? = none → logicalAddr x.blockLen i c ≤ x.fileSize)
  | plain {next : LogicalClusterIndex} (htyp : c.typ = .plain) (haddr : c.blockAddr ≠ 0)
      (hnext : x.lcis[i + 1]? = some next) (hstart : isStart next)
  | marker (htyp : c.typ = .plain) (haddr : c.blockAddr = 0) (hlast : i + 1 = x.lcis.length)
      (hend : logicalAddr x.blockLen i c = x.fileSize)

end Meaning

section Starts

variable {lcis : List LogicalClusterIndex} {i : ℕ} {c : LogicalClusterIndex}

theorem isStart_iff : isStart c ↔ c.typ = .head1 ∨ c.typ = .plain := by simp [isStart]

theorem drop_of_some (h : lcis[i]? = some c) : lcis.drop i = c :: lcis.drop (i + 1) := by
  obtain ⟨hi, rfl⟩ := List.getElem?_eq_some_iff.mp h
  exact List.drop_eq_getElem_cons hi

theorem nextStart_of_start (h : lcis[i]? = some c) (hc : isStart c) : nextStart lcis i = i := by
  rw [nextStart, drop_of_some h, List.findIdx_cons, hc]
  rfl

theorem nextStart_of_not (h : lcis[i]? = some c) (hc : isStart c = false) :
    nextStart lcis i = nextStart lcis (i + 1) := by
  rw [nextStart, nextStart, drop_of_some h, List.findIdx_cons, hc]
  change i + (_ + 1) = _
  omega

theorem nextStart_of_none (h : lcis[i]? = none) : nextStart lcis i = i := by
  rw [nextStart, List.drop_eq_nil_of_le (List.getElem?_eq_none_iff.mp h)]
  rfl

theorem nextStart_ge (lcis : List LogicalClusterIndex) (i : ℕ) : i ≤ nextStart lcis i := Nat.le_add_right _ _

theorem nextStart_isStart (h : lcis[nextStart lcis i]? = some c) : isStart c := by
  rw [nextStart, ← List.getElem?_drop] at h
  obtain ⟨hlt, rfl⟩ := List.getElem?_eq_some_iff.mp h
  exact List.findIdx_getElem

theorem nextStart_end (h : lcis[nextStart lcis i]? = none) (hi : i ≤ lcis.length) :
    nextStart lcis i = lcis.length := by
  have hge := List.getElem?_eq_none_iff.mp h
  have hle : (lcis.drop i).findIdx isStart ≤ (lcis.drop i).length := List.findIdx_le_length
  rw [List.length_drop] at hle
  unfold nextStart at hge ⊢
  omega

/-- No span begins before the next start. -/
theorem nextStart_le {k : ℕ} (hk : lcis[k]? = some c) (hc : isStart c) (hi : i ≤ k) :
    nextStart lcis i ≤ k := by
  by_contra hlt
  have hlt' : k - i < (lcis.drop i).findIdx isStart := by
    unfold nextStart at hlt
    omega
  obtain ⟨hk', rfl⟩ := List.getElem?_eq_some_iff.mp hk
  have hnot := List.not_of_lt_findIdx hlt'
  rw [List.getElem_drop] at hnot
  simp only [Nat.add_sub_cancel' hi] at hnot
  rw [hnot] at hc
  cases hc

end Starts

section Spans

variable {x : Decoding} {i : ℕ} {c next : LogicalClusterIndex}

theorem spanStop_some (h : x.lcis[nextStart x.lcis i]? = some next) :
    spanStop x i = logicalAddr x.blockLen (nextStart x.lcis i) next := by
  rw [spanStop, h]
  rfl

theorem spanStop_none (h : x.lcis[nextStart x.lcis i]? = none) : spanStop x i = x.fileSize := by
  rw [spanStop, h]
  rfl

theorem decodedFrom_some (h : x.lcis[i]? = some c) :
    decodedFrom x i = entryBytes x i c ++ decodedFrom x (i + 1) := by
  rw [decodedFrom, drop_of_some h, List.zipIdx_cons, List.flatMap_cons]
  rfl

theorem decodedFrom_none (h : x.lcis[i]? = none) : decodedFrom x i = [] := by
  rw [decodedFrom, List.drop_eq_nil_of_le (List.getElem?_eq_none_iff.mp h)]
  rfl

theorem decodedFrom_nextStart : decodedFrom x i = decodedFrom x (nextStart x.lcis i) := by
  induction hn : x.lcis.length - i generalizing i with
  | zero => rw [nextStart_of_none (List.getElem?_eq_none_iff.mpr (by omega))]
  | succ n ih =>
    have hi : x.lcis[i]? = some x.lcis[i] := List.getElem?_eq_getElem (by omega)
    cases hc : isStart x.lcis[i] with
    | true => rw [nextStart_of_start hi hc]
    | false =>
      rw [nextStart_of_not hi hc, decodedFrom_some hi, entryBytes, if_neg (by simp [hc]), List.nil_append]
      exact ih (by omega)

variable (hlen : x.fs.data.length < 2 ^ 63) (hwf : WellFormed x) (hc : x.lcis[i]? = some c)
  (hstart : isStart c)
include hlen hwf hc hstart

theorem shiftedStart_of_start : shiftedStart x.fs c.blockAddr = blockStart x.fs c.blockAddr := by
  have hle := hwf.block i c hc hstart
  exact shiftedStart_eq (by omega)

theorem spanBytes_stored (len : ℕ) : x.spanBytes c len = storedSpan x c len := by
  rw [Decoding.spanBytes, Decoding.blockOf, shiftedStart_of_start hlen hwf hc hstart, storedSpan]

theorem blockOf_some : (x.blockOf c).isSome := by
  have hle := hwf.block i c hc hstart
  rw [Decoding.blockOf, shiftedStart_of_start hlen hwf hc hstart, slice?,
    if_pos ⟨Nat.le_add_right _ _, hle⟩]
  rfl

variable (hdec : Full x.dec)
include hdec

theorem spanBytes_some {len : ℕ} (hplain : c.typ = .plain → len ≤ x.blockLen) :
    ∃ out, x.spanBytes c len = some out ∧ out.length = len := by
  unfold Decoding.spanBytes
  split_ifs with htyp
  · obtain ⟨data, hdata⟩ := Option.isSome_iff_exists.mp (blockOf_some hlen hwf hc hstart)
    obtain ⟨out, hrun, hout⟩ := hdec data len
    exact ⟨out, by rw [hdata, Option.bind_some, hrun], hout⟩
  · have hle := hwf.block i c hc hstart
    have hlen' := hplain ((isStart_iff.mp hstart).resolve_left htyp)
    rw [shiftedStart_of_start hlen hwf hc hstart]
    refine ⟨_, if_pos ⟨Nat.le_add_right _ _, by omega⟩, ?_⟩
    rw [List.length_take, List.length_drop]
    omega

theorem entryBytes_span :
    x.spanBytes c (spanStop x (i + 1) - logicalAddr x.blockLen i c) = some (entryBytes x i c) ∧
      (entryBytes x i c).length = spanStop x (i + 1) - logicalAddr x.blockLen i c := by
  have hplain (h : c.typ = .plain) : spanStop x (i + 1) - logicalAddr x.blockLen i c ≤ x.blockLen := by
    have hle := hwf.plain i c hc h
    omega
  obtain ⟨out, hout, hl⟩ := spanBytes_some hlen hwf hc hstart hdec hplain
  rw [entryBytes, if_pos hstart, ← spanBytes_stored hlen hwf hc hstart, hout]
  exact ⟨rfl, hl⟩

end Spans

section Ends

variable {x : Decoding} {i : ℕ} {c next : LogicalClusterIndex}

theorem successor_nextStart (hwf : WellFormed x) (hnext : x.lcis[i + 1]? = some next)
    (hne : next.typ ≠ .head2) : successor x.lcis i = some (nextStart x.lcis (i + 1)) := by
  rw [successor, hnext]
  refine congrArg some ?_
  change (if next.typ = .nonHead then _ else _) = _
  by_cases htyp : next.typ = .nonHead
  · rw [if_pos htyp, hwf.delta (i + 1) next hnext htyp]
    exact (nextStart_of_not hnext (by simp [isStart, htyp])).symm
  · rw [if_neg htyp]
    have hstart : isStart next := by
      cases h : next.typ <;> simp_all [isStart]
    exact (nextStart_of_start hnext hstart).symm

variable (hlen : x.fs.data.length < 2 ^ 63) (hwf : WellFormed x) (hc : x.lcis[i]? = some c)
  (hstart : isStart c)
include hlen hwf hc hstart

theorem spanEnd_served (hs : Served x i c) (hnext : x.lcis[nextStart x.lcis (i + 1)]? = some next) :
    SpanEnd x i c (nextStart x.lcis (i + 1))
      (logicalAddr x.blockLen (nextStart x.lcis (i + 1)) next) := by
  cases hs with
  | head htyp hnext' hne hle =>
    exact .head htyp (blockOf_some hlen hwf hc hstart) (successor_nextStart hwf hnext' hne) hnext
  | plain htyp haddr hnext' hstart' =>
    rw [nextStart_of_start hnext' hstart'] at hnext ⊢
    exact .plain htyp haddr hnext
  | marker htyp haddr hlast hend =>
    rw [nextStart_of_none (by simp [hlast])] at hnext
    simp [hlast] at hnext

theorem spanEnd_served_last (hs : Served x i c) (hnext : x.lcis[nextStart x.lcis (i + 1)]? = none)
    (htyp : c.typ = .head1) : SpanEnd x i c x.lcis.length x.fileSize := by
  have hi : i + 1 ≤ x.lcis.length := (List.getElem?_eq_some_iff.mp hc).1
  cases hs with
  | head _ hnext' hne hle =>
    have hj := successor_nextStart hwf hnext' hne
    rw [nextStart_end hnext hi] at hj
    exact .tail htyp (blockOf_some hlen hwf hc hstart) hj
  | plain htyp' =>
    rw [htyp] at htyp'
    cases htyp'
  | marker htyp' =>
    rw [htyp] at htyp'
    cases htyp'

theorem block_fits : shiftedStart x.fs c.blockAddr + x.blockLen < 2 ^ 64 := by
  have hle := hwf.block i c hc hstart
  rw [shiftedStart_of_start hlen hwf hc hstart]
  omega

variable (hdec : Full x.dec)
include hdec

theorem full_of_span {stop : ℕ} (hstop : stop = spanStop x (i + 1)) {out : Bytes}
    (h : x.spanBytes c (stop - logicalAddr x.blockLen i c) = some out) :
    out.length = stop - logicalAddr x.blockLen i c := by
  subst hstop
  obtain ⟨hspan, hl⟩ := entryBytes_span hlen hwf hc hstart hdec
  rw [hspan] at h
  cases h
  exact hl

/-- The numbers fit at an entry that is served, if the addresses of the table
stay below a file size that is a 64-bit number. -/
theorem fits_of_served (hsize : x.fileSize < 2 ^ 64) (hs : Served x i c)
    (hbelow : ∀ next, x.lcis[nextStart x.lcis (i + 1)]? = some next →
      logicalAddr x.blockLen (nextStart x.lcis (i + 1)) next ≤ x.fileSize) : Fits x i c := by
  have hblock := block_fits hlen hwf hc hstart
  have hgt : i < nextStart x.lcis (i + 1) := nextStart_ge x.lcis (i + 1)
  cases hnext : x.lcis[nextStart x.lcis (i + 1)]? with
  | some next =>
    have hle := hbelow next hnext
    have hlt := hwf.increasing i _ c next hgt hc hnext hstart (nextStart_isStart hnext)
    have hj := (List.getElem?_eq_some_iff.mp hnext).1
    have hstop := spanStop_some hnext
    refine (spanEnd_served hlen hwf hc hstart hs hnext).fits (fun _ => hblock) ?_
    constructor
    case words =>
      intro _
      omega
    case ordered => exact fun _ => hlt.le
    case start => exact fun h => absurd h hj.ne
    case plain =>
      intro hplain
      have hspan := hwf.plain i c hc hplain
      omega
    case head =>
      intro _ _ next' hnext' hnon
      have hstart' := nextStart_isStart hnext'
      simp [isStart, hnon] at hstart'
    case full => exact fun _ _ _ out hout => full_of_span hlen hwf hc hstart hdec hstop.symm hout
  | none =>
    rcases isStart_iff.mp hstart with htyp | htyp
    · have hle : logicalAddr x.blockLen i c ≤ x.fileSize := by
        cases hs with
        | head _ hnext' hne hle => exact hle hnext
        | plain htyp' => simp [htyp] at htyp'
        | marker htyp' => simp [htyp] at htyp'
      refine (spanEnd_served_last hlen hwf hc hstart hs hnext htyp).fits (fun _ => hblock) ?_
      constructor
      case words => exact fun h => absurd h (lt_irrefl _)
      case ordered => exact fun h => absurd h (lt_irrefl _)
      case start => exact fun _ => by omega
      case plain => exact fun h => by simp [htyp] at h
      case head => exact fun _ _ next h => by simp at h
      case full =>
        exact fun _ _ _ out hout => full_of_span hlen hwf hc hstart hdec (spanStop_none hnext).symm hout
    · refine ⟨fun _ => hblock, fun j stop hend => ?_⟩
      -- a plain entry with no start behind it is the marker, whose span has no end
      cases hs with
      | head htyp' => simp [htyp] at htyp'
      | plain _ haddr hnext' hstart' =>
        rw [nextStart_of_start hnext' hstart', hnext'] at hnext
        cases hnext
      | marker _ haddr => cases hend <;> simp_all

end Ends

section Runs

variable {x : Decoding} {i : ℕ} {c next : LogicalClusterIndex} {w : Bytes}

def Completes (x : Decoding) (i : ℕ) (c : LogicalClusterIndex) (w : Bytes) : Prop :=
  run (decodeStep_decreases x) ⟨i, w⟩ = .ok () (w ++ decodedFrom x i) ∧
    logicalAddr x.blockLen i c + (decodedFrom x i).length = x.fileSize

theorem isStart_of_run {j : ℕ} (hj : x.lcis[j]? = some c) {u : Unit} {w' : Bytes}
    (h : run (decodeStep_decreases x) ⟨j, w⟩ = .ok u w') : isStart c := by
  cases htyp : c.typ with
  | head1 => simp [isStart, htyp]
  | plain => simp [isStart, htyp]
  | head2 =>
    rw [run_done _ (decodeStep_fails (decodeEntry_head2 hj htyp))] at h
    cases h
  | nonHead =>
    rw [run_done _ (decodeStep_fails (decodeEntry_nonHead hj htyp))] at h
    cases h

variable (hb : x.fs.sb.blkszbits.toNat < 64) (hlen : x.fs.data.length < 2 ^ 63)
  (hc : x.lcis[i]? = some c)
include hb hlen hc

theorem fits_of_completes (h : Completes x i c w) : Fits x i c := by
  refine fits_of_ne_panicked hc hb hlen (w := w) fun herr => ?_
  have hrun := h.1
  rw [run_done _ (decodeStep_fails herr)] at hrun
  cases hrun

theorem served_of_completes (h : Completes x i c w) : Served x i c := by
  obtain ⟨hrun, hcount⟩ := h
  cases hr : x.decodeEntry i w with
  | error e w' =>
    rw [run_done _ (decodeStep_fails hr)] at hrun
    cases hrun
  | ok j w' =>
    cases j with
    | some j =>
      obtain ⟨stop, out, hend, hj, -⟩ := decodeEntry_again hc hb hlen hr
      rw [run_again _ (decodeStep_goes hr)] at hrun
      cases hend with
      | head htyp hdata hsucc hnext =>
        have hstart' := isStart_of_run hnext hrun
        obtain ⟨next', hnext', hjump⟩ := Option.map_eq_some_iff.mp hsucc
        refine .head htyp hnext' ?_ ?_
        · intro hhead
          rw [if_neg (by simp [hhead])] at hjump
          subst hjump
          rw [hnext'] at hnext
          cases hnext
          simp [isStart, hhead] at hstart'
        · intro hnone
          have hle := nextStart_le hnext hstart' (successor_gt hsucc)
          rw [List.getElem?_eq_none_iff] at hnone
          omega
      | plain htyp haddr hnext => exact .plain htyp haddr hnext (isStart_of_run hnext hrun)
      | tail => exact absurd hj (lt_irrefl _)
    | none =>
      rcases decodeEntry_done hc hb hlen hr with ⟨out, hend, hle, -⟩ | ⟨htyp, haddr, hlast, rfl⟩
      · obtain ⟨htyp, hsucc⟩ := hend.tail_of_last (lt_irrefl _)
        obtain ⟨next', hnext', hjump⟩ := Option.map_eq_some_iff.mp hsucc
        refine .head htyp hnext' ?_ fun _ => hle
        intro hhead
        rw [if_neg (by simp [hhead])] at hjump
        rw [hjump] at hnext'
        simp at hnext'
      · rw [run_done _ (decodeStep_ends hr)] at hrun
        have hnil : decodedFrom x i = [] := by
          have hw : w' = w' ++ decodedFrom x i := by injection hrun
          exact List.self_eq_append_right.mp hw
        rw [hnil, List.length_nil, Nat.add_zero] at hcount
        exact .marker htyp haddr hlast hcount

variable (hdec : Full x.dec) (hwf : WellFormed x) (hstart : isStart c)
include hdec hwf hstart

theorem completes_iff_next (hf : Fits x i c) (hs : Served x i c)
    (hnext : x.lcis[nextStart x.lcis (i + 1)]? = some next) :
    Completes x i c w ↔ Completes x (nextStart x.lcis (i + 1)) next (w ++ entryBytes x i c) := by
  have hgt : i < nextStart x.lcis (i + 1) := nextStart_ge x.lcis (i + 1)
  have hj := (List.getElem?_eq_some_iff.mp hnext).1
  have hlt := hwf.increasing i _ c next hgt hc hnext hstart (nextStart_isStart hnext)
  obtain ⟨hout, hcount⟩ := entryBytes_span hlen hwf hc hstart hdec
  rw [spanStop_some hnext] at hout hcount
  have hentry := decodeEntry_span (w := w) hc hb hlen hf (spanEnd_served hlen hwf hc hstart hs hnext)
    hlt.le hout
  rw [if_pos hj] at hentry
  unfold Completes
  rw [run_again _ (decodeStep_goes hentry), decodedFrom_some hc, decodedFrom_nextStart,
    List.append_assoc, List.length_append]
  refine and_congr_right fun _ => ?_
  omega

theorem completes_last (hf : Fits x i c) (hs : Served x i c)
    (hnext : x.lcis[nextStart x.lcis (i + 1)]? = none) : Completes x i c w := by
  obtain ⟨hout, hcount⟩ := entryBytes_span hlen hwf hc hstart hdec
  rw [spanStop_none hnext] at hout hcount
  obtain ⟨hentry, hle⟩ : x.decodeEntry i w = .ok none (w ++ entryBytes x i c) ∧
      logicalAddr x.blockLen i c ≤ x.fileSize := by
    cases hs with
    | head htyp hnext' hne hle =>
      have hend := spanEnd_served_last hlen hwf hc hstart (.head htyp hnext' hne hle) hnext htyp
      have hentry := decodeEntry_span (w := w) hc hb hlen hf hend (hle hnext) hout
      rw [if_neg (lt_irrefl _)] at hentry
      exact ⟨hentry, hle hnext⟩
    | plain htyp haddr hnext' hstart' =>
      rw [nextStart_of_start hnext' hstart', hnext'] at hnext
      cases hnext
    | marker htyp haddr hlast hend =>
      rw [hend, Nat.sub_self, List.length_eq_zero_iff] at hcount
      rw [decodeEntry_marker hc htyp haddr, if_pos hlast, hcount, List.append_nil]
      exact ⟨rfl, hend.le⟩
  have hrest : decodedFrom x i = entryBytes x i c := by
    rw [decodedFrom_some hc, decodedFrom_nextStart, decodedFrom_none hnext, List.append_nil]
  refine ⟨?_, ?_⟩
  · rw [run_done _ (decodeStep_ends hentry), hrest]
  · rw [hrest, hcount]
    omega

theorem served_of_completes_all (h : Completes x i c w) :
    ∀ k d, i ≤ k → x.lcis[k]? = some d → isStart d → Served x k d := by
  induction hn : x.lcis.length - i using Nat.strong_induction_on generalizing i c w with
  | _ n ih =>
    subst hn
    intro k d hk hd hdstart
    have hs := served_of_completes hb hlen hc h
    rcases hk.eq_or_lt with rfl | hlt
    · rw [hc] at hd
      cases hd
      exact hs
    · have hgt : i < nextStart x.lcis (i + 1) := nextStart_ge x.lcis (i + 1)
      have hle : nextStart x.lcis (i + 1) ≤ k := nextStart_le hd hdstart hlt
      have hk' := (List.getElem?_eq_some_iff.mp hd).1
      have hnext : x.lcis[nextStart x.lcis (i + 1)]? = some _ := List.getElem?_eq_getElem (by omega)
      have hf := fits_of_completes hb hlen hc h
      rw [completes_iff_next hb hlen hc hdec hwf hstart hf hs hnext] at h
      exact ih _ (by omega) hnext (nextStart_isStart hnext) h rfl k d hle hd hdstart

omit hb hlen hdec hstart in
/-- Where every start is served, no address is above the size of the file. -/
theorem below_of_served (hs : ∀ k d, i ≤ k → x.lcis[k]? = some d → isStart d → Served x k d)
    (hstart : isStart c) : logicalAddr x.blockLen i c ≤ x.fileSize := by
  induction hn : x.lcis.length - i using Nat.strong_induction_on generalizing i c with
  | _ n ih =>
    subst hn
    have hi := (List.getElem?_eq_some_iff.mp hc).1
    have hgt : i < nextStart x.lcis (i + 1) := nextStart_ge x.lcis (i + 1)
    cases hnext : x.lcis[nextStart x.lcis (i + 1)]? with
    | some next =>
      have hstart' := nextStart_isStart hnext
      have hlt := hwf.increasing i _ c next hgt hc hnext hstart hstart'
      have hj := (List.getElem?_eq_some_iff.mp hnext).1
      have hle := ih _ (by omega) hnext (fun k d hk => hs k d (hgt.le.trans hk)) hstart' rfl
      omega
    | none =>
      cases hs i c le_rfl hc hstart with
      | head _ _ _ hle => exact hle hnext
      | plain _ _ hnext' hstart' =>
        rw [nextStart_of_start hnext' hstart', hnext'] at hnext
        cases hnext
      | marker _ _ _ hend => exact hend.le

theorem completes_of_served (hsize : x.fileSize < 2 ^ 64)
    (hs : ∀ k d, i ≤ k → x.lcis[k]? = some d → isStart d → Served x k d) : Completes x i c w := by
  induction hn : x.lcis.length - i using Nat.strong_induction_on generalizing i c w with
  | _ n ih =>
    subst hn
    have hi := (List.getElem?_eq_some_iff.mp hc).1
    have hgt : i < nextStart x.lcis (i + 1) := nextStart_ge x.lcis (i + 1)
    have hs' := hs i c le_rfl hc hstart
    have hlater (k : ℕ) (d : LogicalClusterIndex) (hk : nextStart x.lcis (i + 1) ≤ k) :=
      hs k d (hgt.le.trans hk)
    have hf := fits_of_served hlen hwf hc hstart hdec hsize hs' fun next hnext =>
      below_of_served hnext hwf hlater (nextStart_isStart hnext)
    cases hnext : x.lcis[nextStart x.lcis (i + 1)]? with
    | none => exact completes_last hb hlen hc hdec hwf hstart hf hs' hnext
    | some next =>
      rw [completes_iff_next hb hlen hc hdec hwf hstart hf hs' hnext]
      have hj := (List.getElem?_eq_some_iff.mp hnext).1
      exact ih _ (by omega) hnext (nextStart_isStart hnext) hlater rfl

end Runs

section Files

variable {fs : Erofs} {inode : Inode} {lcis : List LogicalClusterIndex} {blockLen : ℕ}

/-- The entries of `lcis` stand in the image where the table of the file
begins. -/
structure Stored (fs : Erofs) (inode : Inode) (lcis : List LogicalClusterIndex) (blockLen : ℕ) : Prop where
  header : ∃ header, getMapHeader fs inode = .ok header ∧ compressionType1 header = .ok .lz4 ∧
    clusterSize fs header = .ok blockLen
  layout : inode.layout = .ok .compressedFull
  entries : (from? fs.data (roundUpTo 8 (inodeEndAt fs inode) + 8 + 8)).bind (takeIndices lcis.length) =
    some lcis

theorem dataSize_lt (inode : Inode) : inode.dataSize < 2 ^ 64 := by
  cases inode with
  | compact id y => exact lt_trans y.size.toNat_lt (by norm_num)
  | extended id y => exact y.size.toNat_lt

theorem countOf_one {size blockLen : ℕ} (hpos : 0 < size) (h : size ≤ blockLen) :
    countOf size blockLen = 1 := by
  rw [countOf, Nat.div_eq_iff (by omega)]
  omega

theorem countOf_eq {size block blockLen : ℕ} (hb : 0 < block) (hle : block ≤ blockLen)
    (h : blockLen = block ∨ size ≤ block) : countOf size blockLen = countOf size block := by
  rcases h with rfl | h
  · rfl
  · rcases Nat.eq_zero_or_pos size with rfl | hpos
    · rw [countOf, countOf, Nat.div_eq_of_lt (by omega), Nat.div_eq_of_lt (by omega)]
    · rw [countOf_one hpos h, countOf_one hpos (h.trans hle)]

variable {id : UInt32} (hin : Readable fs id inode) (hlen : fs.data.length < 2 ^ 63)
include hin hlen

theorem Stored.table (hs : Stored fs inode lcis blockLen)
    (hcount : lcis.length = countOf inode.dataSize (2 ^ fs.sb.blkszbits.toNat)) :
    Table fs inode lcis blockLen := by
  refine ⟨hs.header, ?_⟩
  obtain ⟨data, hdata, htake⟩ := Option.bind_eq_some_iff.mp hs.entries
  rcases getLogicalClusterIndices_eq hin hlen with ⟨hl, -⟩ | ⟨-, heq⟩
  · exact absurd hs.layout hl
  · rw [heq, hdata, ← hcount]
    change ErofsReader.okOr (takeIndices lcis.length data) _ = _
    rw [htake]
    rfl

omit hlen in
theorem Stored.block_le (hs : Stored fs inode lcis blockLen) : 2 ^ fs.sb.blkszbits.toNat ≤ blockLen := by
  obtain ⟨header, -, -, hsize⟩ := hs.header
  rw [clusterSize_eq hin.bits] at hsize
  split_ifs at hsize
  cases hsize
  exact Nat.pow_le_pow_right (by norm_num) (Nat.le_add_right _ _)

end Files

/-- On a well-formed table the loop writes the whole file, as the table says,
exactly if it can end the span of every entry; the table has as many entries
as the loop reads if a cluster is a block, or the file has no more than one. -/
theorem decoding_complete_iff (assertions : Bool) {lz4 : Decompressor} (hdec : Full lz4) {image : Bytes}
    {fs : Erofs} {id : UInt32} {inode : Inode} {lcis : List LogicalClusterIndex} {blockLen : ℕ}
    (hnew : Erofs.new image = .ok fs) (hlen : image.length < 2 ^ 63) (hget : fs.getInode id = .ok inode)
    (hstored : Stored fs inode lcis blockLen)
    (hwf : WellFormed (decodingOf assertions lz4 fs inode lcis blockLen))
    (hcount : blockLen = 2 ^ fs.sb.blkszbits.toNat ∨ inode.dataSize ≤ 2 ^ fs.sb.blkszbits.toNat) :
    (getCompressedData assertions lz4 fs inode [] =
          .ok () (decodedFrom (decodingOf assertions lz4 fs inode lcis blockLen) 0) ∧
        (decodedFrom (decodingOf assertions lz4 fs inode lcis blockLen) 0).length = inode.dataSize) ↔
      ∀ i c, lcis[i]? = some c → isStart c →
        Served (decodingOf assertions lz4 fs inode lcis blockLen) i c := by
  have hin := getInode_reads hget
  rw [← new_data hnew] at hlen
  have hsame := countOf_eq (by positivity) (hstored.block_le hin) hcount
  have ht := hstored.table hin hlen (hwf.length.trans hsame)
  rw [getCompressedData_eq, openTable_of_table lz4 ht]
  change ((if lcis = [] then pure () else (decodingOf assertions lz4 fs inode lcis blockLen).decodeAll :
    EStateM Error Bytes Unit) [] = _ ∧ _) ↔ _
  cases lcis with
  | nil =>
    have hzero := size_of_countOf_zero (by positivity) (indices_length hin hlen ht.indices).symm
    exact iff_of_true ⟨rfl, hzero.symm⟩ fun i c hi => by cases hi
  | cons first rest =>
    obtain ⟨hstart, haddr⟩ := hwf.first first rfl
    rw [if_neg (by simp)]
    have hiff : Completes (decodingOf assertions lz4 fs inode (first :: rest) blockLen) 0 first [] ↔
        ∀ i c, (first :: rest)[i]? = some c → isStart c →
          Served (decodingOf assertions lz4 fs inode (first :: rest) blockLen) i c := by
      constructor
      · intro h i c
        exact served_of_completes_all hin.bits hlen rfl hdec hwf hstart h i c (Nat.zero_le i)
      · intro h
        exact completes_of_served hin.bits hlen rfl hdec hwf hstart (dataSize_lt inode) fun k d _ => h k d
    unfold Completes at hiff
    rw [haddr, Nat.zero_add] at hiff
    exact hiff

section Images

theorem zeros_full : Full zeros := fun _ n => ⟨List.replicate n 0, rfl, List.length_replicate⟩

theorem twoEntries_get {i : ℕ} {c : LogicalClusterIndex} (h : twoEntries[i]? = some c) :
    i = 0 ∧ c = ⟨1, 0, 1⟩ ∨ i = 1 ∧ c = ⟨2, 0, 65536⟩ := by
  rcases i with _ | _ | i
  · cases h
    exact Or.inl ⟨rfl, rfl⟩
  · cases h
    exact Or.inr ⟨rfl, rfl⟩
  · cases h

/-- Two entries, of which the second continues the first, are well formed in
every file that needs two clusters. -/
theorem twoEntries_wellFormed {x : Decoding} (hlcis : x.lcis = twoEntries)
    (hcount : 2 = countOf x.fileSize x.blockLen)
    (hblock : blockStart x.fs 1 + x.blockLen ≤ x.fs.data.length) : WellFormed x := by
  refine ⟨?_, ?_, ?_, ?_, ?_, ?_⟩
  · rw [hlcis]
    exact hcount
  · rw [hlcis]
    rintro c ⟨⟩
    exact ⟨rfl, by simp [logicalAddr]⟩
  · rw [hlcis]
    intro i j c d hij hi hj _ hd
    obtain ⟨rfl, rfl⟩ | ⟨rfl, rfl⟩ := twoEntries_get hj
    · omega
    · cases hd
  · rw [hlcis]
    intro i c hi htyp
    obtain ⟨rfl, rfl⟩ | ⟨rfl, rfl⟩ := twoEntries_get hi
    · cases htyp
    · rfl
  · rw [hlcis]
    intro i c hi htyp
    obtain ⟨rfl, rfl⟩ | ⟨rfl, rfl⟩ := twoEntries_get hi
    · cases htyp
    · cases htyp
  · rw [hlcis]
    intro i c hi hstart
    obtain ⟨rfl, rfl⟩ | ⟨rfl, rfl⟩ := twoEntries_get hi
    · exact hblock
    · cases hstart

theorem clusterFs_length : (clusterFs 256 twoEntries).data.length = 1216 := by decide +kernel

theorem two_entries_complete :
    getCompressedData true zeros (clusterFs 256 twoEntries) (.compact 0 (clusterInode 256)) [] =
      .ok () (decodedFrom twoDecoding 0) := by
  have hget : (clusterFs 256 twoEntries).getInode 0 = .ok (.compact 0 (clusterInode 256)) := by
    decide +kernel
  have hs : Stored (clusterFs 256 twoEntries) (.compact 0 (clusterInode 256)) twoEntries 128 :=
    ⟨⟨⟨0, 0, 0, 0⟩, by decide +kernel, rfl, rfl⟩, rfl, by decide +kernel⟩
  have hwf : WellFormed twoDecoding := by
    refine twoEntries_wellFormed rfl rfl ?_
    change 128 + 128 ≤ (clusterFs 256 twoEntries).data.length
    rw [clusterFs_length]
    norm_num
  refine ((decoding_complete_iff true zeros_full (new_tinyImage 7 9 _)
    (lt_of_eq_of_lt clusterFs_length (by norm_num)) hget hs hwf (Or.inl rfl)).mpr ?_).1
  intro i c hi hstart
  obtain ⟨rfl, rfl⟩ | ⟨rfl, rfl⟩ := twoEntries_get hi
  · exact .head rfl rfl (by decide) fun _ => by decide
  · cases hstart

def oneEntry : List LogicalClusterIndex := [⟨1, 0, 1⟩]

theorem oneEntry_get {i : ℕ} {c : LogicalClusterIndex} (h : oneEntry[i]? = some c) :
    i = 0 ∧ c = ⟨1, 0, 1⟩ := by
  rcases i with _ | i
  · cases h
    exact ⟨rfl, rfl⟩
  · cases h

def oneDecoding : Decoding :=
  decodingOf true zeros (clusterFs 100 oneEntry) (.compact 0 (clusterInode 100)) oneEntry 128

theorem oneEntry_wellFormed : WellFormed oneDecoding := by
  have hlen : (clusterFs 100 oneEntry).data.length = 1208 := by decide +kernel
  refine ⟨rfl, ?_, ?_, ?_, ?_, ?_⟩
  · rintro c ⟨⟩
    exact ⟨rfl, rfl⟩
  · intro i j c d hij _ hj
    obtain ⟨rfl, -⟩ := oneEntry_get hj
    omega
  · intro i c hi htyp
    obtain ⟨rfl, rfl⟩ := oneEntry_get hi
    cases htyp
  · intro i c hi htyp
    obtain ⟨rfl, rfl⟩ := oneEntry_get hi
    cases htyp
  · intro i c hi _
    obtain ⟨rfl, rfl⟩ := oneEntry_get hi
    change 128 + 128 ≤ (clusterFs 100 oneEntry).data.length
    rw [hlen]
    norm_num

def wideImage : Bytes :=
  tinyImage (tinySuper 7 9) ((clusterInode 512).asBytes ++
    (MapHeader.asBytes ⟨0, 0, 0, 1⟩ ++ (List.replicate 8 0 ++ twoEntries.flatMap LogicalClusterIndex.asBytes)))

def wideDecoding : Decoding :=
  decodingOf true zeros ⟨wideImage, tinySuper 7 9⟩ (.compact 0 (clusterInode 512)) twoEntries 256

/-- The head of the only span has no entry after it to end the span; and of a
file of two clusters with two blocks each, four entries are read. -/
theorem well_formed_fails :
    (∃ fs inode, Erofs.new (clusterImage 100 oneEntry) = .ok fs ∧ fs.getInode 0 = .ok inode ∧
      inode.dataSize = 100 ∧ Stored fs inode oneEntry 128 ∧
      WellFormed (decodingOf true zeros fs inode oneEntry 128) ∧ Full zeros ∧
      result (getCompressedData true zeros fs inode []) = .error .oob) ∧
    ∃ fs inode, Erofs.new wideImage = .ok fs ∧ fs.getInode 0 = .ok inode ∧ inode.dataSize = 512 ∧
      Stored fs inode twoEntries 256 ∧ WellFormed (decodingOf true zeros fs inode twoEntries 256) ∧
      (∀ i c, twoEntries[i]? = some c → isStart c →
        Served (decodingOf true zeros fs inode twoEntries 256) i c) ∧
      result (getCompressedData true zeros fs inode []) = .error .badConversion := by
  have hone : Stored (clusterFs 100 oneEntry) (.compact 0 (clusterInode 100)) oneEntry 128 :=
    ⟨⟨⟨0, 0, 0, 0⟩, by decide +kernel, rfl, rfl⟩, rfl, by decide +kernel⟩
  have htwo : Stored ⟨wideImage, tinySuper 7 9⟩ (.compact 0 (clusterInode 512)) twoEntries 256 :=
    ⟨⟨⟨0, 0, 0, 1⟩, by decide +kernel, rfl, rfl⟩, rfl, by decide +kernel⟩
  have hlen : wideImage.length = 1216 := by decide +kernel
  have hwide : WellFormed wideDecoding := by
    refine twoEntries_wellFormed rfl rfl ?_
    change 128 + 256 ≤ wideImage.length
    rw [hlen]
    norm_num
  refine ⟨⟨clusterFs 100 oneEntry, .compact 0 (clusterInode 100), new_tinyImage _ _ _, ?_, rfl, hone,
      oneEntry_wellFormed, zeros_full, ?_⟩,
    _, .compact 0 (clusterInode 512), new_tinyImage _ _ _, ?_, rfl, htwo, hwide, ?_, ?_⟩
  · decide +kernel
  · decide +kernel
  · decide +kernel
  · intro i c hi hstart
    obtain ⟨rfl, rfl⟩ | ⟨rfl, rfl⟩ := twoEntries_get hi
    · exact .head rfl rfl (by decide) fun _ => by decide
    · cases hstart
  · decide +kernel

end Images

end ProgramExplorer.ErofsClusterTables
