import Mathlib.Tactic

/-!
# Sifting a list against what was kept of it

A scan that goes through a list once and keeps an element unless the elements
kept so far rule it out. Deduplication and greedy selection have this form.
The last theorem says when such a scan avoids a given set of elements: it is
enough to look at the scan that leaves them out.
-/

set_option autoImplicit false

namespace ProgramExplorer.Sift

variable {γ : Type}

section Scan

variable (drop : List γ → γ → Prop) [∀ acc c, Decidable (drop acc c)]

def sift : List γ → List γ → List γ
  | acc, [] => acc
  | acc, c :: cs => if drop acc c then sift acc cs else sift (acc ++ [c]) cs

theorem sift_append (acc xs ys : List γ) :
    sift drop acc (xs ++ ys) = sift drop (sift drop acc xs) ys := by
  induction xs generalizing acc with
  | nil => rfl
  | cons c xs ih =>
    simp only [List.cons_append, sift]
    split_ifs <;> exact ih _

/-- Two scans that decide alike as long as only elements with `P` are kept. -/
theorem sift_congr_within (drop' : List γ → γ → Prop) [∀ acc c, Decidable (drop' acc c)] {P : γ → Prop}
    {acc xs : List γ} (hacc : ∀ a ∈ acc, P a) (hxs : ∀ c ∈ xs, P c)
    (h : ∀ c ∈ xs, ∀ acc, (∀ a ∈ acc, P a) → (drop acc c ↔ drop' acc c)) :
    sift drop acc xs = sift drop' acc xs := by
  induction xs generalizing acc with
  | nil => rfl
  | cons c xs ih =>
    have hc := h c (by simp) acc hacc
    have hrest : ∀ acc, (∀ a ∈ acc, P a) → sift drop acc xs = sift drop' acc xs := fun acc hacc =>
      ih hacc (fun c' h' => hxs c' (by simp [h'])) fun c' h' => h c' (by simp [h'])
    simp only [sift, hc]
    split_ifs
    · exact hrest acc hacc
    · refine hrest _ fun a ha => ?_
      rcases List.mem_append.mp ha with ha | ha
      · exact hacc a ha
      · exact List.mem_singleton.mp ha ▸ hxs c (by simp)

theorem sift_congr (drop' : List γ → γ → Prop) [∀ acc c, Decidable (drop' acc c)]
    (acc xs : List γ) (h : ∀ c ∈ xs, ∀ acc, drop acc c ↔ drop' acc c) :
    sift drop acc xs = sift drop' acc xs :=
  sift_congr_within (P := fun _ => True) drop drop' (by simp) (by simp) fun c hc acc _ => h c hc acc

theorem sift_eq_append (acc xs : List γ) :
    ∃ ks, sift drop acc xs = acc ++ ks ∧ ks.Sublist xs := by
  induction xs generalizing acc with
  | nil => exact ⟨[], by simp [sift], List.Sublist.refl _⟩
  | cons c xs ih =>
    simp only [sift]
    split_ifs with h
    · obtain ⟨ks, hk, hs⟩ := ih acc
      exact ⟨ks, hk, hs.cons c⟩
    · obtain ⟨ks, hk, hs⟩ := ih (acc ++ [c])
      exact ⟨c :: ks, by simp [hk], hs.cons_cons c⟩

theorem sift_sublist (xs : List γ) : (sift drop [] xs).Sublist xs := by
  obtain ⟨ks, hk, hs⟩ := sift_eq_append drop [] xs
  rw [hk]
  exact hs

theorem sift_map {γ' : Type} (drop' : List γ' → γ' → Prop) [∀ acc c, Decidable (drop' acc c)]
    (f : γ → γ') (hf : ∀ acc c, drop' (acc.map f) (f c) ↔ drop acc c) (acc xs : List γ) :
    (sift drop acc xs).map f = sift drop' (acc.map f) (xs.map f) := by
  induction xs generalizing acc with
  | nil => rfl
  | cons c xs ih =>
    simp only [List.map_cons, sift, hf]
    split_ifs
    · exact ih acc
    · simpa using ih (acc ++ [c])

theorem sift_filter (keep : γ → Bool) (hk : ∀ acc c, keep c = false → drop acc c)
    (acc xs : List γ) : sift drop acc (xs.filter keep) = sift drop acc xs := by
  induction xs generalizing acc with
  | nil => rfl
  | cons c xs ih =>
    cases hc : keep c with
    | false => simp [hc, sift, hk acc c hc, ih]
    | true =>
      simp only [List.filter_cons, hc, if_true, sift]
      split_ifs <;> exact ih _

theorem mem_sift_iff (pre post : List γ) (c : γ) (hn : (pre ++ c :: post).Nodup) :
    c ∈ sift drop [] (pre ++ c :: post) ↔ ¬ drop (sift drop [] pre) c := by
  have hpre : c ∉ sift drop [] pre := fun h =>
    (List.nodup_append.mp hn).2.2 c ((sift_sublist drop pre).subset h) c (by simp) rfl
  have hpost : c ∉ post := (List.nodup_cons.mp (List.nodup_append.mp hn).2.1).1
  rw [sift_append, sift]
  split_ifs with h
  · obtain ⟨ks, hk, hs⟩ := sift_eq_append drop (sift drop [] pre) post
    simp only [hk, List.mem_append, h, not_true_eq_false, iff_false, not_or]
    exact ⟨hpre, fun hc => hpost (hs.subset hc)⟩
  · obtain ⟨ks, hk, -⟩ := sift_eq_append drop (sift drop [] pre ++ [c]) post
    simp [hk, h]

/-- The scan keeps what a filter keeps if it decides as the filter does. -/
theorem sift_eq_filter (keep : γ → Bool) (acc xs : List γ)
    (h : ∀ pre c post, xs = pre ++ c :: post →
      (drop (acc ++ pre.filter keep) c ↔ keep c = false)) :
    sift drop acc xs = acc ++ xs.filter keep := by
  induction xs generalizing acc with
  | nil => simp [sift]
  | cons x xs ih =>
    have hx := h [] x xs rfl
    rw [List.filter_nil, List.append_nil] at hx
    have hrest : ∀ pre c post, xs = pre ++ c :: post →
        (drop (acc ++ (x :: pre).filter keep) c ↔ keep c = false) :=
      fun pre c post hxs => h (x :: pre) c post (by simp [hxs])
    rw [sift, List.filter_cons]
    cases hk : keep x with
    | false =>
      rw [if_pos (hx.mpr hk), if_neg (by simp)]
      exact ih acc (by simpa [hk] using hrest)
    | true =>
      rw [if_neg (by simp [hx, hk]), if_pos rfl, ih (acc ++ [x]) (by simpa [hk] using hrest)]
      simp

variable {β : Type} {f : γ → β} {keep : γ → Bool} (hkeep : ∀ c c', f c = f c' → keep c = keep c')

include hkeep in
theorem kept_of_map_eq {ks ys : List γ} (h : ks.map f = ys.map f) (hys : ∀ y ∈ ys, keep y = true) :
    ∀ k ∈ ks, keep k = true := by
  intro k hk
  have hm : f k ∈ ys.map f := h ▸ List.mem_map_of_mem hk
  obtain ⟨y, hy, hf⟩ := List.mem_map.mp hm
  rw [← hkeep y k hf]
  exact hys y hy

include hkeep in
/-- At the head of the list a value would be missing or one too many. -/
theorem decides_head {acc xs : List γ} {x : γ}
    (h : (sift drop acc (x :: xs)).map f = (acc ++ (x :: xs).filter keep).map f) :
    drop acc x ↔ keep x = false := by
  constructor
  · intro hd
    by_contra hk
    rw [Bool.not_eq_false] at hk
    obtain ⟨ks, hks, hsub⟩ := sift_eq_append drop acc xs
    rw [sift, if_pos hd, hks, List.filter_cons_of_pos hk, List.map_append, List.map_append,
      List.append_cancel_left_eq] at h
    have hall := kept_of_map_eq hkeep h (by simp [hk])
    have hle := (hsub.filter keep).length_le
    rw [List.filter_eq_self.mpr hall] at hle
    have hlen := congrArg List.length h
    simp only [List.length_map, List.length_cons] at hlen
    omega
  · intro hk
    by_contra hd
    obtain ⟨ks, hks, -⟩ := sift_eq_append drop (acc ++ [x]) xs
    rw [sift, if_neg hd, hks, List.filter_cons_of_neg (by simp [hk])] at h
    have hrest : (x :: ks).map f = (xs.filter keep).map f := by simpa using h
    have hall := kept_of_map_eq hkeep hrest (by simp)
    simp [hall x (by simp)] at hk

include hkeep in
/-- Conversely, if it keeps the same values and the filter goes by these, it
decides as the filter does at every place. -/
theorem decides_of_sift_eq_filter {acc xs : List γ}
    (h : (sift drop acc xs).map f = (acc ++ xs.filter keep).map f) {pre post : List γ} {c : γ}
    (hxs : xs = pre ++ c :: post) : drop (acc ++ pre.filter keep) c ↔ keep c = false := by
  induction xs generalizing acc pre with
  | nil => simp at hxs
  | cons x xs ih =>
    have hx := decides_head drop hkeep h
    cases pre with
    | nil =>
      obtain ⟨rfl, rfl⟩ := List.cons.inj hxs
      simpa using hx
    | cons y pre =>
      obtain ⟨rfl, hrest⟩ := List.cons.inj hxs
      cases hk : keep x with
      | false =>
        rw [sift, if_pos (hx.mpr hk), List.filter_cons_of_neg (by simp [hk])] at h
        simpa [hk] using ih h hrest
      | true =>
        rw [sift, if_neg (by simp [hx, hk]), List.filter_cons_of_pos hk] at h
        simpa [hk] using @ih (acc ++ [x]) (by simpa using h) pre hrest

end Scan

section Avoiding

variable (drop : List γ → γ → Prop) [∀ acc c, Decidable (drop acc c)]
variable (bad : γ → Prop) [DecidablePred bad]

theorem sift_avoids_iff_from (acc xs : List γ) (hacc : ∀ c ∈ acc, ¬ bad c) :
    (∀ c ∈ sift drop acc xs, ¬ bad c) ↔
      ∀ pre c post, xs = pre ++ c :: post → bad c →
        drop (sift (fun acc c => bad c ∨ drop acc c) acc pre) c := by
  induction xs generalizing acc with
  | nil =>
    refine iff_of_true hacc ?_
    intro pre c post h
    simp at h
  | cons x xs ih =>
    have split : ∀ Q : List γ → γ → Prop,
        (∀ pre c post, x :: xs = pre ++ c :: post → bad c → Q pre c) ↔
          (bad x → Q [] x) ∧
            ∀ pre c post, xs = pre ++ c :: post → bad c → Q (x :: pre) c := by
      intro Q
      constructor
      · intro h
        exact ⟨h [] x xs rfl, fun pre c post hx => h (x :: pre) c post (by simp [hx])⟩
      · rintro ⟨h0, h1⟩ pre c post hx
        cases pre with
        | nil =>
          obtain ⟨rfl, -⟩ := List.cons.inj hx
          exact h0
        | cons y pre =>
          obtain ⟨rfl, hxs⟩ := List.cons.inj hx
          exact h1 pre c post hxs
    rw [split]
    by_cases hb : bad x
    · by_cases hd : drop acc x
      · simp only [sift, hd, hb, if_true, true_or, forall_true_left, true_and]
        exact ih acc hacc
      · simp only [sift, hd, hb, if_false, forall_true_left, false_and, iff_false]
        intro h
        obtain ⟨ks, hk, -⟩ := sift_eq_append drop (acc ++ [x]) xs
        exact h x (by simp [hk]) hb
    · by_cases hd : drop acc x
      · simp only [sift, hd, hb, if_true, or_true, false_imp_iff, true_and]
        exact ih acc hacc
      · simp only [sift, hd, hb, if_false, or_self, false_imp_iff, true_and]
        refine ih (acc ++ [x]) ?_
        intro c hc
        rcases List.mem_append.mp hc with hc | hc
        · exact hacc c hc
        · exact List.mem_singleton.mp hc ▸ hb

/-- The scan keeps no bad element exactly when each of them is ruled out by
what the scan that skips all bad elements has kept before it. -/
theorem sift_avoids_iff (xs : List γ) :
    (∀ c ∈ sift drop [] xs, ¬ bad c) ↔
      ∀ pre c post, xs = pre ++ c :: post → bad c →
        drop (sift (fun acc c => bad c ∨ drop acc c) [] pre) c :=
  sift_avoids_iff_from drop bad [] xs (by simp)

/-- A scan that keeps no bad element is the scan that skips them. -/
theorem sift_eq_of_avoids {acc xs : List γ} (h : ∀ c ∈ sift drop acc xs, ¬ bad c) :
    sift drop acc xs = sift (fun acc c => bad c ∨ drop acc c) acc xs := by
  induction xs generalizing acc with
  | nil => rfl
  | cons x xs ih =>
    by_cases hd : drop acc x
    · simp only [sift, hd, if_true, or_true] at h ⊢
      exact ih h
    · simp only [sift, hd, if_false, or_false] at h ⊢
      obtain ⟨ks, hk, -⟩ := sift_eq_append drop (acc ++ [x]) xs
      rw [if_neg (h x (by simp [hk]))]
      exact ih h

end Avoiding

end ProgramExplorer.Sift
