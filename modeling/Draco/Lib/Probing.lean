/-
# Tables that are searched by probing

A table stores contents under keys.  The search for a content starts at a key that the
content determines and goes from key to key by `next`, until it comes to a key that is
free or whose entry has the content; it gives up after a number of steps.

* `exists_probe` : it does not give up while the table has fewer entries than it may try
  keys, if these are different;
* `Probed.insert` : putting the content where the search ended keeps the invariant that
  every entry is where a search for its content ends;
* `Probed.eq_of_content` : under this invariant no content is stored twice.
-/
import Mathlib.Data.Finset.Card
import Mathlib.Data.Finset.Range
import Mathlib.Logic.Function.Iterate

namespace Probing

variable {ε κ γ : Type*} (key : ε → κ) (content : ε → γ) (next : κ → κ)

section Search

variable [DecidableEq κ] [DecidableEq γ]

/-- Search for a content from a key on, with `n` more keys to try: the key at which the
search ends, and the entry there if the content is stored. -/
def probe (tbl : List ε) (c : γ) : ℕ → κ → Option (κ × Option ε)
  | n, k =>
    match tbl.find? fun e => key e = k with
    | none => some (k, none)
    | some e =>
      if content e = c then some (k, some e)
      else
        match n with
        | 0 => none
        | n + 1 => probe tbl c n (next k)

variable {key content next}

/-- No entry is found when none has the key. -/
theorem find?_key_eq_none {tbl : List ε} {k : κ} :
    (tbl.find? fun e => key e = k) = none ↔ ∀ e ∈ tbl, key e ≠ k := by
  simp

theorem find?_key_eq_some {tbl : List ε} {k : κ} {e : ε}
    (h : (tbl.find? fun e => key e = k) = some e) : e ∈ tbl ∧ key e = k :=
  ⟨List.mem_of_find?_eq_some h, by simpa using List.find?_some h⟩

/-- A probe ends where no entry has the key. -/
theorem probe_of_free {tbl : List ε} {k : κ} (h : (tbl.find? fun e => key e = k) = none) (c : γ)
    (n : ℕ) : probe key content next tbl c n k = some (k, none) := by
  cases n <;> rw [probe, h]

/-- A probe ends at an entry with its content. -/
theorem probe_of_hit {tbl : List ε} {k : κ} {e : ε}
    (h : (tbl.find? fun e => key e = k) = some e) {c : γ} (hc : content e = c) (n : ℕ) :
    probe key content next tbl c n k = some (k, some e) := by
  cases n <;> rw [probe, h] <;> exact if_pos hc

/-- **Where a search ends.**  All keys it passed are those of entries with other contents. -/
theorem probe_spec {tbl : List ε} {c : γ} {n : ℕ} {k k' : κ} {r : Option ε}
    (h : probe key content next tbl c n k = some (k', r)) :
    ∃ j, k' = next^[j] k ∧
      (∀ i < j, ∃ e ∈ tbl, key e = next^[i] k ∧ content e ≠ c) ∧
      (r = none ∧ (∀ e ∈ tbl, key e ≠ k') ∨
        ∃ e ∈ tbl, r = some e ∧ key e = k' ∧ content e = c) := by
  fun_induction probe key content next tbl c n k with
  | case1 n k hf =>
    obtain ⟨rfl, rfl⟩ := Prod.mk.inj (Option.some.inj h)
    exact ⟨0, rfl, (fun _ hi => by cases hi), Or.inl ⟨rfl, find?_key_eq_none.mp hf⟩⟩
  | case2 n k e hf hc =>
    obtain ⟨he, hk⟩ := find?_key_eq_some hf
    obtain ⟨rfl, rfl⟩ := Prod.mk.inj (Option.some.inj h)
    exact ⟨0, rfl, (fun _ hi => by cases hi), Or.inr ⟨e, he, rfl, hk, hc⟩⟩
  | case3 k e hf hc => cases h
  | case4 k e hf hc n ih =>
    obtain ⟨he, hk⟩ := find?_key_eq_some hf
    obtain ⟨j, hk', hpassed, hr⟩ := ih h
    refine ⟨j + 1, hk', fun i hi => ?_, hr⟩
    cases i with
    | zero => exact ⟨e, he, hk, hc⟩
    | succ i => exact hpassed i (Nat.lt_of_succ_lt_succ hi)

/-- A search that gives up has passed an entry at every key it may try. -/
theorem mem_keys_of_probe_eq_none {tbl : List ε} {c : γ} {n : ℕ} {k : κ}
    (h : probe key content next tbl c n k = none) {i : ℕ} (hi : i ≤ n) :
    next^[i] k ∈ tbl.map key := by
  fun_induction probe key content next tbl c n k generalizing i with
  | case1 n k hf => cases h
  | case2 n k e hf hc => cases h
  | case3 k e hf hc =>
    obtain ⟨he, hk⟩ := find?_key_eq_some hf
    obtain rfl := Nat.le_zero.mp hi
    exact List.mem_map.mpr ⟨e, he, hk⟩
  | case4 k e hf hc n ih =>
    obtain ⟨he, hk⟩ := find?_key_eq_some hf
    cases i with
    | zero => exact List.mem_map.mpr ⟨e, he, hk⟩
    | succ i => exact ih h (Nat.le_of_succ_le_succ hi)

/-- **The search ends** while the table has at most as many entries as the keys that the
search may try after the first one. -/
theorem exists_probe {tbl : List ε} {n : ℕ} {k : κ}
    (hinj : Set.InjOn (fun i => next^[i] k) (Set.Iic n)) (hlen : tbl.length ≤ n) (c : γ) :
    ∃ p, probe key content next tbl c n k = some p := by
  by_contra hnone
  have h : probe key content next tbl c n k = none := by
    rw [Option.eq_none_iff_forall_ne_some]
    exact fun p hp => hnone ⟨p, hp⟩
  have hsub : (Finset.range (n + 1)).image (fun i => next^[i] k) ⊆ (tbl.map key).toFinset := by
    intro x hx
    obtain ⟨i, hi, rfl⟩ := Finset.mem_image.mp hx
    exact List.mem_toFinset.mpr (mem_keys_of_probe_eq_none h (Finset.mem_range_succ_iff.mp hi))
  have hcard : n + 1 ≤ (tbl.map key).toFinset.card := by
    calc n + 1 = (Finset.range (n + 1)).card := (Finset.card_range _).symm
      _ = ((Finset.range (n + 1)).image fun i => next^[i] k).card :=
        (Finset.card_image_of_injOn fun i hi j hj hij =>
          hinj (Finset.mem_range_succ_iff.mp hi) (Finset.mem_range_succ_iff.mp hj) hij).symm
      _ ≤ (tbl.map key).toFinset.card := Finset.card_le_card hsub
  have hle := (tbl.map key).toFinset_card_le
  rw [List.length_map] at hle
  omega

end Search

/-! ## The invariant -/

/-- Every entry is at the end of a search for its content: at all keys before its own are
entries with other contents. -/
def Probed (start : γ → κ) (tbl : List ε) : Prop :=
  ∀ e ∈ tbl, ∃ j, key e = next^[j] (start (content e)) ∧
    ∀ i < j, ∃ e' ∈ tbl, key e' = next^[i] (start (content e)) ∧ content e' ≠ content e

variable {key content next} {start : γ → κ} {tbl : List ε}

theorem probed_nil : Probed key content next start ([] : List ε) := fun _ he => by cases he

/-- An entry at the key where the search for its content ended. -/
theorem Probed.insert [DecidableEq κ] [DecidableEq γ] (h : Probed key content next start tbl)
    {e : ε} {n : ℕ} {r : Option ε}
    (hp : probe key content next tbl (content e) n (start (content e)) = some (key e, r)) :
    Probed key content next start (tbl ++ [e]) := by
  obtain ⟨j, hk, hpassed, -⟩ := probe_spec hp
  have hmem : ∀ {k : κ} {c : γ}, (∃ e' ∈ tbl, key e' = k ∧ content e' ≠ c) →
      ∃ e' ∈ tbl ++ [e], key e' = k ∧ content e' ≠ c :=
    fun ⟨e', he', h⟩ => ⟨e', List.mem_append_left _ he', h⟩
  intro e' he'
  rcases List.mem_append.mp he' with he' | he'
  · obtain ⟨j', hk', hpassed'⟩ := h e' he'
    exact ⟨j', hk', fun i hi => hmem (hpassed' i hi)⟩
  · rw [List.mem_singleton.mp he']
    exact ⟨j, hk, fun i hi => hmem (hpassed i hi)⟩

/-- Only the keys and contents matter. -/
theorem Probed.map (h : Probed key content next start tbl) {f : ε → ε}
    (hkey : ∀ e, key (f e) = key e) (hcontent : ∀ e, content (f e) = content e) :
    Probed key content next start (tbl.map f) := by
  intro e he
  obtain ⟨e₀, he₀, rfl⟩ := List.mem_map.mp he
  obtain ⟨j, hk, hpassed⟩ := h e₀ he₀
  rw [hkey, hcontent]
  refine ⟨j, hk, fun i hi => ?_⟩
  obtain ⟨e', he', hk', hc'⟩ := hpassed i hi
  exact ⟨f e', List.mem_map_of_mem he', by rw [hkey, hk'], by rwa [hcontent]⟩

/-- **No content is stored twice**, if the entries have different keys. -/
theorem Probed.eq_of_content (h : Probed key content next start tbl)
    (hkeys : ∀ e ∈ tbl, ∀ e' ∈ tbl, key e = key e' → e = e') {e e' : ε} (he : e ∈ tbl)
    (he' : e' ∈ tbl) (hc : content e = content e') : e = e' := by
  obtain ⟨j, hk, hpassed⟩ := h e he
  obtain ⟨j', hk', hpassed'⟩ := h e' he'
  -- the entry that is found earlier would be passed on the way to the other one
  rcases Nat.lt_trichotomy j j' with hlt | rfl | hlt
  · obtain ⟨f, hf, hkf, hcf⟩ := hpassed' j hlt
    have hfe : f = e := hkeys f hf e he (by rw [hkf, hk, hc])
    exact (hcf (by rw [hfe, hc])).elim
  · exact hkeys e he e' he' (by rw [hk, hk', hc])
  · obtain ⟨f, hf, hkf, hcf⟩ := hpassed j' hlt
    have hfe : f = e' := hkeys f hf e' he' (by rw [hkf, hk', hc])
    exact (hcf (by rw [hfe, hc])).elim

end Probing
