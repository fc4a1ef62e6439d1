import Mathlib.Data.Finset.Card
import Mathlib.Tactic

/-!
# CPU sets of the workers

`cpuset` and `cpuset_range` of `perunner/src/worker.rs`. The first cuts the
CPUs above an offset into blocks, one for each worker; the second makes the
set of the server. Both start from the affinity mask of the thread, which may
have gaps.
-/

set_option autoImplicit false

namespace ProgramExplorer.CpuSets

section Sets

def maxCpu : ℕ := 1024

inductive Panic where
  | indexOutOfBounds
  deriving DecidableEq, Repr

structure CpuSet where
  cpus : Finset (Fin maxCpu)
  deriving DecidableEq

def CpuSet.new : CpuSet := ⟨∅⟩

def CpuSet.isSet (c : CpuSet) (field : ℕ) : Except Panic Bool :=
  if h : field < maxCpu then .ok (decide (⟨field, h⟩ ∈ c.cpus)) else .error .indexOutOfBounds

def CpuSet.set (c : CpuSet) (field : ℕ) : Except Panic CpuSet :=
  if h : field < maxCpu then .ok ⟨insert ⟨field, h⟩ c.cpus⟩ else .error .indexOutOfBounds

def CpuSet.count (c : CpuSet) : ℕ := c.cpus.card

instance instMembershipCpuSet : Membership ℕ CpuSet := ⟨fun c k => ∃ h : k < maxCpu, ⟨k, h⟩ ∈ c.cpus⟩

theorem mem_mk {cpus : Finset (Fin maxCpu)} {k : ℕ} :
    k ∈ CpuSet.mk cpus ↔ ∃ h : k < maxCpu, ⟨k, h⟩ ∈ cpus := Iff.rfl

theorem mem_cpus {c : CpuSet} {k : Fin maxCpu} : k ∈ c.cpus ↔ k.val ∈ c :=
  ⟨fun h => ⟨k.isLt, h⟩, fun ⟨_, h⟩ => h⟩

theorem lt_of_mem {c : CpuSet} {k : ℕ} (h : k ∈ c) : k < maxCpu := h.1

theorem not_mem_new (k : ℕ) : k ∉ CpuSet.new := fun ⟨_, h⟩ => Finset.notMem_empty _ h

theorem ext_of_mem {c d : CpuSet} (h : ∀ k, k ∈ c ↔ k ∈ d) : c = d := by
  obtain ⟨c⟩ := c
  obtain ⟨d⟩ := d
  congr 1
  ext k
  exact mem_cpus.trans ((h k.val).trans mem_cpus.symm)

theorem isSet_eq_true {c : CpuSet} {k : ℕ} : c.isSet k = .ok true ↔ k ∈ c := by
  unfold CpuSet.isSet
  split_ifs with h
  · rw [Except.ok.injEq, decide_eq_true_iff]
    exact mem_cpus
  · constructor
    · intro he
      cases he
    · intro hk
      exact absurd (lt_of_mem hk) h

theorem isSet_of_not_mem {c : CpuSet} {k : ℕ} (hlt : k < maxCpu) (h : k ∉ c) : c.isSet k = .ok false := by
  rw [CpuSet.isSet, dif_pos hlt, decide_eq_false fun hk => h ⟨hlt, hk⟩]

theorem set_eq_ok {c : CpuSet} {k : ℕ} (hlt : k < maxCpu) :
    ∃ c', c.set k = .ok c' ∧ ∀ l, l ∈ c' ↔ l = k ∨ l ∈ c := by
  refine ⟨_, dif_pos hlt, fun l => ?_⟩
  simp only [mem_mk, Finset.mem_insert, Fin.mk.injEq]
  constructor
  · rintro ⟨hl, rfl | hmem⟩
    · exact Or.inl rfl
    · exact Or.inr ⟨hl, hmem⟩
  · rintro (rfl | ⟨hl, hmem⟩)
    · exact ⟨hlt, Or.inl rfl⟩
    · exact ⟨hl, Or.inr hmem⟩

/-- A set that is a block of CPUs has as many as the block is long. -/
theorem count_of_block {c : CpuSet} {a n : ℕ} (h : ∀ k, k ∈ c ↔ a ≤ k ∧ k < a + n) : c.count = n := by
  have hmap : c.cpus.map Fin.valEmbedding = Finset.Ico a (a + n) := by
    ext k
    rw [Finset.mem_map, Finset.mem_Ico, ← h k]
    constructor
    · rintro ⟨l, hl, rfl⟩
      exact mem_cpus.mp hl
    · rintro ⟨hlt, hk⟩
      exact ⟨⟨k, hlt⟩, hk, rfl⟩
  rw [CpuSet.count, ← Finset.card_map Fin.valEmbedding, hmap, Nat.card_Ico, Nat.add_sub_cancel_left]

theorem count_le (c : CpuSet) : c.count ≤ maxCpu := by
  simpa [CpuSet.count] using Finset.card_le_univ c.cpus

end Sets

section Workers

def collect (all : CpuSet) : List ℕ → CpuSet → Except Panic (Option CpuSet)
  | [], c => .ok (some c)
  | k :: ks, c => do
    if ← all.isSet k then
      let c ← c.set k
      collect all ks c
    else pure none

/-- The values of `k` in the inner loop for worker `i`; an index of 64 bits
wraps around. -/
def cores (coreOffset nCoresPerWorker : UInt64) (i : ℕ) : List ℕ :=
  (List.range nCoresPerWorker.toNat).map fun j =>
    (coreOffset + UInt64.ofNat i * nCoresPerWorker + UInt64.ofNat j).toNat

def collectWorkers (all : CpuSet) (coreOffset nCoresPerWorker : UInt64) :
    List ℕ → List CpuSet → Except Panic (Option (List CpuSet))
  | [], ret => .ok (some ret)
  | i :: is, ret => do
    match ← collect all (cores coreOffset nCoresPerWorker i) CpuSet.new with
    | none => pure none
    | some c => collectWorkers all coreOffset nCoresPerWorker is (ret ++ [c])

def cpuset (affinity : Option CpuSet) (coreOffset nWorkers nCoresPerWorker : UInt64) :
    Except Panic (Option (List CpuSet)) :=
  if coreOffset % 2 = 1 then .ok none
  else if nCoresPerWorker % 2 = 1 then .ok none
  else
    match affinity with
    | none => .ok none
    | some all => collectWorkers all coreOffset nCoresPerWorker (List.range nWorkers.toNat) []

theorem collect_eq_some {all c c' : CpuSet} {ks : List ℕ} (h : collect all ks c = .ok (some c')) :
    (∀ k ∈ ks, k ∈ all) ∧ ∀ k, k ∈ c' ↔ k ∈ c ∨ k ∈ ks := by
  induction ks generalizing c with
  | nil =>
    cases h
    simp
  | cons k ks ih =>
    by_cases hk : k ∈ all
    · obtain ⟨d, hd, hmem⟩ := @set_eq_ok c k (lt_of_mem hk)
      have hrest : collect all ks d = .ok (some c') := by
        rw [collect, isSet_eq_true.mpr hk] at h
        change (c.set k >>= fun c => collect all ks c) = _ at h
        rwa [hd] at h
      obtain ⟨hall, hc'⟩ := ih hrest
      refine ⟨List.forall_mem_cons.mpr ⟨hk, hall⟩, fun l => ?_⟩
      rw [hc', hmem, List.mem_cons]
      tauto
    · rw [collect] at h
      by_cases hlt : k < maxCpu
      · rw [isSet_of_not_mem hlt hk] at h
        cases h
      · rw [CpuSet.isSet, dif_neg hlt] at h
        cases h

def Serves (all : CpuSet) (coreOffset nCoresPerWorker : UInt64) (i : ℕ) (c : CpuSet) : Prop :=
  (∀ k ∈ cores coreOffset nCoresPerWorker i, k ∈ all) ∧
    ∀ k, k ∈ c ↔ k ∈ cores coreOffset nCoresPerWorker i

variable {all : CpuSet} {coreOffset nWorkers nCoresPerWorker : UInt64}

theorem collectWorkers_eq_some {is : List ℕ} {ret sets : List CpuSet}
    (h : collectWorkers all coreOffset nCoresPerWorker is ret = .ok (some sets)) :
    ∃ new, sets = ret ++ new ∧ List.Forall₂ (Serves all coreOffset nCoresPerWorker) is new := by
  induction is generalizing ret with
  | nil =>
    cases h
    exact ⟨[], by simp, .nil⟩
  | cons i is ih =>
    rw [collectWorkers] at h
    cases hc : collect all (cores coreOffset nCoresPerWorker i) CpuSet.new with
    | error e =>
      rw [hc] at h
      cases h
    | ok found =>
      rw [hc] at h
      cases found with
      | none => cases h
      | some c =>
        obtain ⟨new, rfl, hnew⟩ := ih h
        obtain ⟨hall, hmem⟩ := collect_eq_some hc
        refine ⟨c :: new, by simp, .cons ⟨hall, fun k => ?_⟩ hnew⟩
        rw [hmem, or_iff_right (not_mem_new k)]

theorem core_eq (i j : ℕ) :
    (coreOffset + UInt64.ofNat i * nCoresPerWorker + UInt64.ofNat j).toNat =
      (coreOffset.toNat + (i * nCoresPerWorker.toNat + j)) % 2 ^ 64 := by
  rw [UInt64.toNat_add, UInt64.toNat_add, UInt64.toNat_mul, UInt64.toNat_ofNat', UInt64.toNat_ofNat',
    ← Nat.add_assoc]
  simp [Nat.add_mod, Nat.mul_mod]

theorem no_wrap {a n : ℕ} (ha : a < 2 ^ 64) (h : ∀ m < n, (a + m) % 2 ^ 64 < maxCpu) {m : ℕ} (hm : m < n) :
    a + m < maxCpu := by
  induction m with
  | zero =>
    have h0 := h 0 hm
    rwa [Nat.add_zero, Nat.mod_eq_of_lt ha] at h0
  | succ m ih =>
    have hlt := ih (by omega)
    have hnext := h (m + 1) hm
    rwa [Nat.mod_eq_of_lt] at hnext
    unfold maxCpu at hlt
    omega

def blockStart (coreOffset nCoresPerWorker : UInt64) (i : ℕ) : ℕ :=
  coreOffset.toNat + i * nCoresPerWorker.toNat

/-- Where all indices are allowed, the workers get consecutive blocks. -/
theorem mem_cores {w : ℕ} (h : ∀ i < w, ∀ k ∈ cores coreOffset nCoresPerWorker i, k < maxCpu) {i : ℕ}
    (hi : i < w) (k : ℕ) :
    k ∈ cores coreOffset nCoresPerWorker i ↔
      blockStart coreOffset nCoresPerWorker i ≤ k ∧
        k < blockStart coreOffset nCoresPerWorker i + nCoresPerWorker.toNat := by
  have hsmall : ∀ m < w * nCoresPerWorker.toNat, (coreOffset.toNat + m) % 2 ^ 64 < maxCpu := by
    intro m hm
    have hpos : 0 < nCoresPerWorker.toNat := by
      by_contra h0
      simp [Nat.eq_zero_of_not_pos h0] at hm
    refine h (m / nCoresPerWorker.toNat) (Nat.div_lt_of_lt_mul (by rwa [Nat.mul_comm])) _ ?_
    refine List.mem_map.mpr ⟨m % nCoresPerWorker.toNat, List.mem_range.mpr (Nat.mod_lt _ hpos), ?_⟩
    rw [core_eq, Nat.div_add_mod']
  have hcore : ∀ j < nCoresPerWorker.toNat,
      (coreOffset + UInt64.ofNat i * nCoresPerWorker + UInt64.ofNat j).toNat =
        blockStart coreOffset nCoresPerWorker i + j := by
    intro j hj
    have hm : i * nCoresPerWorker.toNat + j < w * nCoresPerWorker.toNat := by
      calc
        i * nCoresPerWorker.toNat + j < i * nCoresPerWorker.toNat + nCoresPerWorker.toNat := by omega
        _ = (i + 1) * nCoresPerWorker.toNat := (Nat.succ_mul _ _).symm
        _ ≤ w * nCoresPerWorker.toNat := Nat.mul_le_mul_right _ hi
    have hlt := no_wrap coreOffset.toNat_lt hsmall hm
    rw [core_eq, Nat.mod_eq_of_lt, blockStart, Nat.add_assoc]
    unfold maxCpu at hlt
    omega
  simp only [cores, List.mem_map, List.mem_range]
  constructor
  · rintro ⟨j, hj, rfl⟩
    rw [hcore j hj]
    omega
  · rintro ⟨hle, hlt⟩
    refine ⟨k - blockStart coreOffset nCoresPerWorker i, by omega, ?_⟩
    rw [hcore _ (by omega)]
    omega

structure Isolated (all : CpuSet) (coreOffset nWorkers nCoresPerWorker : UInt64) (sets : List CpuSet) :
    Prop where
  workers : sets.length = nWorkers.toNat
  size : ∀ c ∈ sets, c.count = nCoresPerWorker.toNat
  allowed : ∀ c ∈ sets, ∀ k ∈ c, k ∈ all ∧ coreOffset.toNat ≤ k
  disjoint : sets.Pairwise fun c d => Disjoint c.cpus d.cpus
  noSharedPair : sets.Pairwise fun c d => ∀ k ∈ c, ∀ l ∈ d, k / 2 ≠ l / 2

theorem blockStart_succ_le {i j : ℕ} (h : i < j) :
    blockStart coreOffset nCoresPerWorker i + nCoresPerWorker.toNat ≤
      blockStart coreOffset nCoresPerWorker j := by
  have hmul := Nat.mul_le_mul_right nCoresPerWorker.toNat (Nat.succ_le_of_lt h)
  rw [Nat.succ_mul] at hmul
  unfold blockStart
  omega

theorem blockStart_even (ho : coreOffset.toNat % 2 = 0) (hn : nCoresPerWorker.toNat % 2 = 0) (i : ℕ) :
    blockStart coreOffset nCoresPerWorker i % 2 = 0 := by
  simp [blockStart, Nat.add_mod, Nat.mul_mod, ho, hn]

theorem even_of_guard {x : UInt64} (h : ¬ x % 2 = 1) : x.toNat % 2 = 0 := by
  have hne : x.toNat % 2 ≠ 1 := by
    intro h1
    refine h (UInt64.toNat_inj.mp ?_)
    rw [UInt64.toNat_mod]
    exact h1
  omega

def Blocks (coreOffset nCoresPerWorker : UInt64) (sets : List CpuSet) : Prop :=
  ∀ i (hi : i < sets.length) (k : ℕ), k ∈ sets[i] ↔
    blockStart coreOffset nCoresPerWorker i ≤ k ∧
      k < blockStart coreOffset nCoresPerWorker i + nCoresPerWorker.toNat

theorem blocks_of_serves {sets : List CpuSet}
    (h : ∀ i (hi : i < sets.length), Serves all coreOffset nCoresPerWorker i (sets[i])) :
    Blocks coreOffset nCoresPerWorker sets := by
  intro i hi k
  have hsmall : ∀ i < sets.length, ∀ k ∈ cores coreOffset nCoresPerWorker i, k < maxCpu :=
    fun i hi k hk => lt_of_mem ((h i hi).1 k hk)
  exact ((h i hi).2 k).trans (mem_cores hsmall hi k)

theorem Blocks.apart {sets : List CpuSet} (h : Blocks coreOffset nCoresPerWorker sets) {i j k l : ℕ}
    (hi : i < sets.length) (hj : j < sets.length) (hij : i < j) (hk : k ∈ sets[i]) (hl : l ∈ sets[j]) :
    k < blockStart coreOffset nCoresPerWorker j ∧ blockStart coreOffset nCoresPerWorker j ≤ l := by
  have hlt := ((h i hi k).mp hk).2
  have hnext := @blockStart_succ_le coreOffset nCoresPerWorker i j hij
  exact ⟨by omega, ((h j hj l).mp hl).1⟩

/-- The sets that `cpuset` returns keep the workers on CPUs, and on pairs of
hyperthreads, of their own. -/
theorem cpuset_isolates {affinity : Option CpuSet} {sets : List CpuSet}
    (h : cpuset affinity coreOffset nWorkers nCoresPerWorker = .ok (some sets)) :
    ∃ all, affinity = some all ∧ Isolated all coreOffset nWorkers nCoresPerWorker sets := by
  unfold cpuset at h
  split_ifs at h with ho hn
  · cases h
  · cases h
  cases affinity with
  | none => cases h
  | some all =>
    obtain ⟨new, hnew, hserves⟩ := collectWorkers_eq_some h
    obtain rfl : sets = new := hnew
    obtain ⟨hlen, hget⟩ := List.forall₂_iff_get.mp hserves
    rw [List.length_range] at hlen
    have hserve : ∀ i (hi : i < sets.length), Serves all coreOffset nCoresPerWorker i (sets[i]) := by
      intro i hi
      have hi' : i < (List.range nWorkers.toNat).length := by
        rw [List.length_range]
        omega
      simpa using hget i hi' hi
    have hblocks := blocks_of_serves hserve
    refine ⟨all, rfl, hlen.symm, ?_, ?_, ?_, ?_⟩
    · intro c hc
      obtain ⟨i, hi, rfl⟩ := List.getElem_of_mem hc
      exact count_of_block (hblocks i hi)
    · intro c hc k hk
      obtain ⟨i, hi, rfl⟩ := List.getElem_of_mem hc
      refine ⟨(hserve i hi).1 k (((hserve i hi).2 k).mp hk), ?_⟩
      exact (Nat.le_add_right _ _).trans ((hblocks i hi k).mp hk).1
    · rw [List.pairwise_iff_getElem]
      intro i j hi hj hij
      rw [Finset.disjoint_left]
      intro k hk hk'
      have hapart := hblocks.apart hi hj hij (mem_cpus.mp hk) (mem_cpus.mp hk')
      omega
    · rw [List.pairwise_iff_getElem]
      intro i j hi hj hij k hk l hl
      have hapart := hblocks.apart hi hj hij hk hl
      have heven := blockStart_even (even_of_guard ho) (even_of_guard hn) j
      omega

def CpuSet.block (a n : ℕ) : CpuSet := ⟨Finset.univ.filter fun k => a ≤ k.val ∧ k.val < a + n⟩

theorem two_workers_isolated : ∃ sets all,
    cpuset (some (CpuSet.block 0 8)) 2 2 2 = .ok (some sets) ∧ some (CpuSet.block 0 8) = some all ∧
      Isolated all 2 2 2 sets := by
  have hsome : ((cpuset (some (CpuSet.block 0 8)) 2 2 2).toOption.bind id).isSome = true := by
    decide +kernel
  cases h : cpuset (some (CpuSet.block 0 8)) 2 2 2 with
  | error e =>
    rw [h] at hsome
    cases hsome
  | ok found =>
    rw [h] at hsome
    obtain ⟨sets, rfl⟩ := Option.isSome_iff_exists.mp hsome
    obtain ⟨all, hall, hisolated⟩ := cpuset_isolates h
    exact ⟨sets, all, rfl, hall, hisolated⟩

end Workers

section Range

def collectAllowed (all : CpuSet) : List ℕ → CpuSet → Except Panic CpuSet
  | [], c => .ok c
  | i :: is, c => do
    if ← all.isSet i then
      let c ← c.set i
      collectAllowed all is c
    else collectAllowed all is c

def rangeFrom (begin stop : ℕ) : List ℕ := (List.range (stop - begin)).map (begin + ·)

def cpusetRange (affinity : Option CpuSet) (begin : ℕ) (stop : Option ℕ) : Except Panic (Option CpuSet) :=
  match affinity with
  | none => .ok none
  | some all =>
    match stop with
    | some stop =>
      if begin > stop then .ok none else collect all (rangeFrom begin (stop + 1)) CpuSet.new
    | none => do
      let c ← collectAllowed all (rangeFrom begin all.count) CpuSet.new
      pure (some c)

theorem mem_rangeFrom {begin stop k : ℕ} : k ∈ rangeFrom begin stop ↔ begin ≤ k ∧ k < stop := by
  simp only [rangeFrom, List.mem_map, List.mem_range]
  constructor
  · rintro ⟨i, hi, rfl⟩
    omega
  · rintro ⟨hle, hlt⟩
    exact ⟨k - begin, by omega, by omega⟩

theorem collectAllowed_eq_ok {all c : CpuSet} {is : List ℕ} (h : ∀ i ∈ is, i < maxCpu) :
    ∃ c', collectAllowed all is c = .ok c' ∧ ∀ k, k ∈ c' ↔ k ∈ c ∨ k ∈ is ∧ k ∈ all := by
  induction is generalizing c with
  | nil => exact ⟨c, rfl, by simp⟩
  | cons i is ih =>
    have hlt := h i List.mem_cons_self
    have hrest := fun k hk => h k (List.mem_cons_of_mem i hk)
    by_cases hi : i ∈ all
    · obtain ⟨d, hd, hmem⟩ := @set_eq_ok c i hlt
      obtain ⟨c', hc', hk⟩ := @ih d hrest
      refine ⟨c', ?_, fun k => ?_⟩
      · rw [collectAllowed, isSet_eq_true.mpr hi]
        change (c.set i >>= fun c => collectAllowed all is c) = _
        rw [hd]
        exact hc'
      · rw [hk, hmem, List.mem_cons]
        constructor
        · rintro ((rfl | hc) | hin)
          · exact Or.inr ⟨Or.inl rfl, hi⟩
          · exact Or.inl hc
          · exact Or.inr ⟨Or.inr hin.1, hin.2⟩
        · rintro (hc | ⟨rfl | hin, hall⟩)
          · exact Or.inl (Or.inr hc)
          · exact Or.inl (Or.inl rfl)
          · exact Or.inr ⟨hin, hall⟩
    · obtain ⟨c', hc', hk⟩ := @ih c hrest
      refine ⟨c', ?_, fun k => ?_⟩
      · rw [collectAllowed, isSet_of_not_mem hlt hi]
        exact hc'
      · rw [hk, List.mem_cons]
        constructor
        · rintro (hc | hin)
          · exact Or.inl hc
          · exact Or.inr ⟨Or.inr hin.1, hin.2⟩
        · rintro (hc | ⟨rfl | hin, hall⟩)
          · exact Or.inl hc
          · exact absurd hall hi
          · exact Or.inr ⟨hin, hall⟩

def CpuSet.from (c : CpuSet) (begin : ℕ) : CpuSet := ⟨c.cpus.filter fun k => begin ≤ k.val⟩

theorem mem_from {c : CpuSet} {begin k : ℕ} : k ∈ c.from begin ↔ begin ≤ k ∧ k ∈ c := by
  simp only [CpuSet.from, mem_mk, Finset.mem_filter]
  constructor
  · rintro ⟨hlt, hmem, hle⟩
    exact ⟨hle, hlt, hmem⟩
  · rintro ⟨hle, hlt, hmem⟩
    exact ⟨hlt, hmem, hle⟩

theorem cpusetRange_open (all : CpuSet) (begin : ℕ) :
    ∃ c, cpusetRange (some all) begin none = .ok (some c) ∧
      ∀ k, k ∈ c ↔ begin ≤ k ∧ k < all.count ∧ k ∈ all := by
  have hlt : ∀ i ∈ rangeFrom begin all.count, i < maxCpu := fun i hi =>
    (mem_rangeFrom.mp hi).2.trans_le (count_le all)
  obtain ⟨c, hc, hmem⟩ := @collectAllowed_eq_ok all CpuSet.new _ hlt
  refine ⟨c, ?_, fun k => ?_⟩
  · simp only [cpusetRange, hc]
    rfl
  · rw [hmem, or_iff_right (not_mem_new k), mem_rangeFrom, and_assoc]

/-- The mask is cut at its size: the members from `begin` on come back exactly
if none of them is as large as their number. -/
theorem open_range_iff (all : CpuSet) (begin : ℕ) :
    cpusetRange (some all) begin none = .ok (some (all.from begin)) ↔
      ∀ k ∈ all, begin ≤ k → k < all.count := by
  obtain ⟨c, hc, hmem⟩ := cpusetRange_open all begin
  rw [hc, Except.ok.injEq, Option.some.injEq]
  constructor
  · rintro rfl k hk hle
    exact ((hmem k).mp (mem_from.mpr ⟨hle, hk⟩)).2.1
  · intro h
    refine ext_of_mem fun k => ?_
    rw [hmem, mem_from]
    constructor
    · rintro ⟨hle, -, hk⟩
      exact ⟨hle, hk⟩
    · rintro ⟨hle, hk⟩
      exact ⟨hle, h k hk hle, hk⟩

/-- Two CPUs above a gap: the range of all of them is empty. -/
theorem mask_with_gap_lost :
    cpusetRange (some (CpuSet.block 2 2)) 0 none = .ok (some CpuSet.new) ∧
      (CpuSet.block 2 2).from 0 ≠ CpuSet.new := by
  decide +kernel

end Range

end ProgramExplorer.CpuSets
