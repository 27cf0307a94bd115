/-
# Code in labelled blocks with forward jumps

An assembler gets a list of blocks, each with a label, whose jumps name labels.  A
jump goes to a block further down the list that carries the label; several blocks
may carry the same one.  This file gives the two meanings that matter: of the
blocks, where a jump goes to the first block below with its label (`runFrom`), and
of the assembled code, where a jump skips a number of instructions (`exec`).

* `exec_of_sound` : if every block keeps what is expected at its label, every assembly
  of the list gives the expected result, whichever of the blocks with its label a jump
  is resolved to;
* `sound_of_coherent` : where blocks with one label are equal, they keep what running
  the list gives.
-/
import Mathlib.Algebra.BigOperators.Group.List.Basic
import Mathlib.Data.List.Basic

namespace LabelledCode

variable {ι κ β ℓ σ ρ : Type*}

/-! ## Effects -/

/-- What a piece of labelled code does in a state: it goes on behind its end, jumps to a
label, stops with a result, or has no meaning. -/
inductive Effect (ℓ σ ρ : Type*) where
  | next (s : σ)
  | goto (l : ℓ) (s : σ)
  | done (r : ρ)
  | stuck

/-- The same for assembled code, where a jump skips instructions. -/
inductive RawEffect (σ ρ : Type*) where
  | next (s : σ)
  | skip (n : ℕ) (s : σ)
  | done (r : ρ)
  | stuck

/-- The effect of the instructions of a block, one after the other. -/
def bodyEffect (eff : ι → σ → Effect ℓ σ ρ) : List ι → σ → Effect ℓ σ ρ
  | [], s => .next s
  | i :: is, s =>
    match eff i s with
    | .next s' => bodyEffect eff is s'
    | e => e

@[simp] theorem bodyEffect_nil (eff : ι → σ → Effect ℓ σ ρ) (s : σ) :
    bodyEffect eff [] s = .next s := rfl

/-- An instruction that goes on leads to the next one. -/
theorem bodyEffect_cons_next {eff : ι → σ → Effect ℓ σ ρ} {i : ι} {s s' : σ}
    (h : eff i s = .next s') (is : List ι) :
    bodyEffect eff (i :: is) s = bodyEffect eff is s' := by
  rw [bodyEffect, h]

/-- A single instruction does what it does. -/
theorem bodyEffect_singleton (eff : ι → σ → Effect ℓ σ ρ) (i : ι) (s : σ) :
    bodyEffect eff [i] s = eff i s := by
  rw [bodyEffect]
  cases eff i s <;> rfl

/-! ## Properties of blocks and what stands behind them -/

/-- `R` holds of every block of the list and the blocks behind it. -/
def Tailwise (R : β → List β → Prop) : List β → Prop
  | [] => True
  | b :: bs => R b bs ∧ Tailwise R bs

/-- What holds along a list holds along its end. -/
theorem Tailwise.of_append {R : β → List β → Prop} (as : List β) {bs : List β}
    (h : Tailwise R (as ++ bs)) : Tailwise R bs := by
  induction as with
  | nil => exact h
  | cons a as ih => exact ih h.2

/-- What holds along a list holds at each of its elements. -/
theorem Tailwise.of_split {R : β → List β → Prop} {xs ys : List β} {b : β}
    (h : Tailwise R (xs ++ b :: ys)) : R b ys :=
  (h.of_append xs).1

/-- Two lists with a property in a row have it together, if more at the end does no harm. -/
theorem Tailwise.append {R R' : β → List β → Prop} {as bs : List β} (h : Tailwise R as)
    (h' : Tailwise R' bs) (hR : ∀ b ∈ as, ∀ rest, R b rest → R' b (rest ++ bs)) :
    Tailwise R' (as ++ bs) := by
  induction as with
  | nil => exact h'
  | cons a as ih =>
    exact ⟨hR a List.mem_cons_self as h.1, ih h.2 fun b hb => hR b (List.mem_cons_of_mem a hb)⟩

/-- It is enough to look at every way to split the list. -/
theorem tailwise_of_splits {R : β → List β → Prop} {bs : List β}
    (h : ∀ xs b ys, bs = xs ++ b :: ys → R b ys) : Tailwise R bs := by
  induction bs with
  | nil => trivial
  | cons b bs ih =>
    refine ⟨h [] b bs rfl, ih fun xs c ys hsplit => ?_⟩
    exact h (b :: xs) c ys (by rw [hsplit, List.cons_append])

/-! ## Running the blocks -/

section Blocks

variable [DecidableEq ℓ] (label : β → ℓ) (beff : β → σ → Effect ℓ σ ρ)

/-- Run a list of blocks, from its first block or from the first block with a label. -/
def runFrom : List β → Option ℓ → σ → Option ρ
  | [], _, _ => none
  | b :: bs, l, s =>
    if l = none ∨ l = some (label b) then
      match beff b s with
      | .next s' => runFrom bs none s'
      | .goto l' s' => runFrom bs (some l') s'
      | .done r => some r
      | .stuck => none
    else runFrom bs l s

/-- A block with another label is skipped. -/
theorem runFrom_skip {b : β} {l : ℓ} (h : l ≠ label b) (bs : List β) (s : σ) :
    runFrom label beff (b :: bs) (some l) s = runFrom label beff bs (some l) s := by
  rw [runFrom, if_neg]
  rintro (h' | h')
  · cases h'
  · exact h (Option.some.inj h')

/-- A block is entered by its label. -/
theorem runFrom_self (b : β) (bs : List β) (s : σ) :
    runFrom label beff (b :: bs) (some (label b)) s = runFrom label beff (b :: bs) none s := by
  rw [runFrom, runFrom, if_pos (Or.inr rfl), if_pos (Or.inl rfl)]

/-- Every block ends by stopping or by a jump down the list. -/
def Forward : List β → Prop
  | [] => True
  | b :: bs =>
    (∀ s, (∀ s', beff b s ≠ .next s') ∧ ∀ l s', beff b s = .goto l s' → l ∈ bs.map label) ∧
      Forward bs

omit [DecidableEq ℓ] in
/-- Jumps of the end of a list go forward, too. -/
theorem Forward.of_append (as : List β) {bs : List β} (h : Forward label beff (as ++ bs)) :
    Forward label beff bs := by
  induction as with
  | nil => exact h
  | cons a as ih => exact ih h.2

variable {label beff}

/-! ## Blocks that keep what is expected at their label -/

/-- `R l s r` says that `r` is expected from label `l` in state `s`.  A block keeps this if
it stops with what is expected at its label, or jumps to where the same is expected. -/
def Sound (label : β → ℓ) (beff : β → σ → Effect ℓ σ ρ) (R : ℓ → σ → ρ → Prop) (b : β) : Prop :=
  ∀ s r, R (label b) s r → beff b s = .done r ∨ ∃ l s', beff b s = .goto l s' ∧ R l s' r

variable {R : ℓ → σ → ρ → Prop}

/-! ## Coherent lists -/

/-- Blocks with the same label do the same. -/
def Coherent (label : β → ℓ) (beff : β → σ → Effect ℓ σ ρ) (bs : List β) : Prop :=
  ∀ b ∈ bs, ∀ c ∈ bs, label b = label c → beff b = beff c

omit [DecidableEq ℓ] in
/-- Fewer blocks are as coherent. -/
theorem Coherent.of_cons {b : β} {bs : List β} (h : Coherent label beff (b :: bs)) :
    Coherent label beff bs := fun c hc d hd =>
  h c (List.mem_cons_of_mem b hc) d (List.mem_cons_of_mem b hd)

/-- The first block with a label, and what stands below it. -/
theorem runFrom_first (beff : β → σ → Effect ℓ σ ρ) {bs : List β} {l : ℓ} (hl : l ∈ bs.map label) :
    ∃ xs c ys, bs = xs ++ c :: ys ∧ label c = l ∧
      ∀ s, runFrom label beff bs (some l) s = runFrom label beff (c :: ys) none s := by
  induction bs with
  | nil => cases hl
  | cons b bs ih =>
    by_cases h : l = label b
    · subst h
      exact ⟨[], b, bs, rfl, rfl, fun s => runFrom_self label beff b bs s⟩
    · rw [List.map_cons, List.mem_cons] at hl
      obtain ⟨xs, c, ys, rfl, hc, hrun⟩ := ih (hl.resolve_left h)
      refine ⟨b :: xs, c, ys, rfl, hc, fun s => ?_⟩
      rw [runFrom_skip label beff h, hrun s]

/-- In a coherent list it does not matter from where one jumps to a label. -/
theorem runFrom_suffix {as bs : List β} (hcoh : Coherent label beff (as ++ bs))
    (hfwd : Forward label beff (as ++ bs)) {l : ℓ} (hl : l ∈ bs.map label) (s : σ) :
    runFrom label beff (as ++ bs) (some l) s = runFrom label beff bs (some l) s := by
  induction hn : (as ++ bs).length using Nat.strongRecOn generalizing as bs l s with
  | _ n ih =>
    cases as with
    | nil => rfl
    | cons a as =>
      by_cases h : l = label a
      · -- `a` and the first block of `bs` with its label do the same
        subst h
        obtain ⟨xs, c, ys, rfl, hc, hrun⟩ := runFrom_first beff hl
        have hca : beff c = beff a := hcoh c (by simp) a (by simp) hc
        have hys : Forward label beff (c :: ys) := by
          apply Forward.of_append label beff (a :: as ++ xs)
          rwa [List.append_assoc]
        have hsplit : as ++ (xs ++ c :: ys) = (as ++ xs ++ [c]) ++ ys := by simp
        rw [hrun s, List.cons_append, runFrom_self, runFrom, runFrom, if_pos (Or.inl rfl),
          if_pos (Or.inl rfl), hca]
        cases he : beff a s with
        | next s' => exact absurd he ((hfwd.1 s).1 s')
        | goto l' s' =>
          show runFrom label beff (as ++ (xs ++ c :: ys)) (some l') s' =
            runFrom label beff ys (some l') s'
          rw [hsplit]
          refine ih _ ?_ ?_ ?_ ((hys.1 s).2 l' s' (by rw [hca, he])) s' rfl
          · rw [← hn, ← hsplit]
            exact Nat.lt_succ_self _
          · rw [← hsplit]
            exact hcoh.of_cons
          · rw [← hsplit]
            exact hfwd.2
        | done r => rfl
        | stuck => rfl
      · rw [List.cons_append, runFrom_skip label beff h]
        exact ih _ (by rw [← hn]; exact Nat.lt_succ_self _) hcoh.of_cons hfwd.2 hl s rfl

/-- The blocks of a coherent list keep what running the list gives. -/
theorem sound_of_coherent {bs : List β} (hcoh : Coherent label beff bs)
    (hfwd : Forward label beff bs) {b : β} (hb : b ∈ bs) :
    Sound label beff
      (fun l s r => l ∈ bs.map label ∧ runFrom label beff bs (some l) s = some r) b := by
  rintro s r ⟨hl, hr⟩
  obtain ⟨xs, c, ys, hbs, hc, hrun⟩ := runFrom_first beff hl
  have hcb : beff c = beff b := hcoh c (by simp [hbs]) b hb hc
  have hys : Forward label beff (c :: ys) := by
    apply Forward.of_append label beff xs
    rwa [← hbs]
  rw [hrun s, runFrom, if_pos (Or.inl rfl), hcb] at hr
  cases he : beff b s with
  | next s' => exact absurd (hcb ▸ he) ((hys.1 s).1 s')
  | goto l' s' =>
    rw [he] at hr
    have hl' : l' ∈ ys.map label := (hys.1 s).2 l' s' (hcb ▸ he)
    have hsplit : bs = (xs ++ [c]) ++ ys := by simp [hbs]
    refine Or.inr ⟨l', s', rfl, by simp [hsplit, hl'], ?_⟩
    rw [← hr, hsplit]
    rw [hsplit] at hcoh hfwd
    exact runFrom_suffix hcoh hfwd hl' s'
  | done r' =>
    rw [he] at hr
    rw [Option.some.inj hr]
    exact Or.inl rfl
  | stuck =>
    rw [he] at hr
    cases hr

end Blocks

/-! ## Assembled code -/

/-- Run assembled code: `n` instructions are still to be skipped. -/
def exec (reff : κ → σ → RawEffect σ ρ) : List κ → ℕ → σ → Option ρ
  | [], _, _ => none
  | _ :: is, n + 1, s => exec reff is n s
  | i :: is, 0, s =>
    match reff i s with
    | .next s' => exec reff is 0 s'
    | .skip n s' => exec reff is n s'
    | .done r => some r
    | .stuck => none

/-- Skipping some code starts behind it. -/
theorem exec_append_skip (reff : κ → σ → RawEffect σ ρ) (as bs : List κ) (n : ℕ) (s : σ) :
    exec reff (as ++ bs) (as.length + n) s = exec reff bs n s := by
  induction as with
  | nil => rw [List.nil_append, List.length_nil, Nat.zero_add]
  | cons a as ih =>
    rw [List.cons_append, List.length_cons, Nat.add_right_comm, exec, ih]

section Assembly

variable (label : β → ℓ) (body : β → List ι) (eff : ι → σ → Effect ℓ σ ρ)
  (reff : κ → σ → RawEffect σ ρ)

/-- The number of instructions of some blocks. -/
def size (bs : List β) : ℕ := (bs.flatMap body).length

@[simp] theorem size_nil : size body ([] : List β) = 0 := rfl

@[simp] theorem size_cons (b : β) (bs : List β) :
    size body (b :: bs) = (body b).length + size body bs := by
  simp [size]

/-- The instructions of two lists add up. -/
theorem size_append (as bs : List β) : size body (as ++ bs) = size body as + size body bs := by
  simp [size]

/-- The order of the blocks does not matter for their number of instructions. -/
theorem size_reverse (bs : List β) : size body bs.reverse = size body bs := by
  induction bs with
  | nil => rfl
  | cons b bs ih =>
    rw [List.reverse_cons, size_append, size_cons, size_cons, ih, size_nil, Nat.add_zero,
      Nat.add_comm]

/-- A block with label `l` begins `n` instructions down the list. -/
def StartsAt (bs : List β) (l : ℓ) (n : ℕ) : Prop :=
  ∃ xs c ys, bs = xs ++ c :: ys ∧ label c = l ∧ n = size body xs

/-- The assembled instruction does what the labelled one does, if that has a meaning; `m`
instructions of the block follow it, and then the blocks `bs`. -/
structure InstrResolved (bs : List β) (m : ℕ) (i : ι) (k : κ) : Prop where
  next : ∀ {s s'}, eff i s = .next s' → reff k s = .next s'
  goto : ∀ {s l s'}, eff i s = .goto l s' →
    ∃ n, StartsAt label body bs l n ∧ reff k s = .skip (m + n) s'
  done : ∀ {s r}, eff i s = .done r → reff k s = .done r

/-- The same for the instructions of a block. -/
def BodyResolved (bs : List β) : List ι → List κ → Prop
  | [], ks => ks = []
  | i :: is, ks => ∃ k ks', ks = k :: ks' ∧
      InstrResolved label body eff reff bs is.length i k ∧ BodyResolved bs is ks'

/-- Some assembled code belongs to a list of blocks. -/
def Assembled : List β → List κ → Prop
  | [], ks => ks = []
  | b :: bs, ks => ∃ ks' kss, ks = ks' ++ kss ∧
      BodyResolved label body eff reff bs (body b) ks' ∧ Assembled bs kss

variable {label body eff reff}

/-- One more block in front moves a block by the size of it. -/
theorem StartsAt.cons {bs : List β} {l : ℓ} {n : ℕ} (h : StartsAt label body bs l n) (b : β) :
    StartsAt label body (b :: bs) l ((body b).length + n) := by
  obtain ⟨xs, c, ys, rfl, hc, rfl⟩ := h
  exact ⟨b :: xs, c, ys, rfl, hc, (size_cons body b xs).symm⟩

/-- A block starts inside the code. -/
theorem StartsAt.le_size {bs : List β} {l : ℓ} {n : ℕ} (h : StartsAt label body bs l n) :
    n ≤ size body bs := by
  obtain ⟨xs, c, ys, rfl, -, rfl⟩ := h
  rw [size_append]
  exact Nat.le_add_right _ _

/-- Resolving a block keeps its number of instructions. -/
theorem BodyResolved.length_eq {bs : List β} {is : List ι} {ks : List κ}
    (h : BodyResolved label body eff reff bs is ks) : ks.length = is.length := by
  induction is generalizing ks with
  | nil =>
    rw [show ks = [] from h]
    rfl
  | cons i is ih =>
    obtain ⟨k, ks', rfl, -, h'⟩ := h
    rw [List.length_cons, List.length_cons, ih h']

/-- Behind some of the blocks stands the assembled code of the others. -/
theorem Assembled.split {as bs : List β} {ks : List κ}
    (h : Assembled label body eff reff (as ++ bs) ks) :
    ∃ ks₁ ks₂, ks = ks₁ ++ ks₂ ∧ ks₁.length = size body as ∧
      Assembled label body eff reff bs ks₂ := by
  induction as generalizing ks with
  | nil => exact ⟨[], ks, rfl, rfl, h⟩
  | cons a as ih =>
    obtain ⟨ks', kss, rfl, ha, h'⟩ := h
    obtain ⟨ks₁, ks₂, rfl, hlen, h''⟩ := ih h'
    refine ⟨ks' ++ ks₁, ks₂, (List.append_assoc ks' ks₁ ks₂).symm, ?_, h''⟩
    rw [List.length_append, ha.length_eq, hlen, size_cons]

/-- The program goes on with the next instruction. -/
theorem exec_of_next {k : κ} {s s' : σ} (h : reff k s = .next s') (ks : List κ) :
    exec reff (k :: ks) 0 s = exec reff ks 0 s' := by
  rw [exec, h]

/-- The program goes on behind what is skipped. -/
theorem exec_of_skip {k : κ} {s s' : σ} {n : ℕ} (h : reff k s = .skip n s') (ks : List κ) :
    exec reff (k :: ks) 0 s = exec reff ks n s' := by
  rw [exec, h]

/-- The program stops with its result. -/
theorem exec_of_done {k : κ} {s : σ} {r : ρ} (h : reff k s = .done r) (ks : List κ) :
    exec reff (k :: ks) 0 s = some r := by
  rw [exec, h]

/-- Running the code of a block that stops or jumps does the same. -/
theorem exec_body {bs : List β} {is : List ι} {ks : List κ}
    (h : BodyResolved label body eff reff bs is ks) (kss : List κ) {s : σ} :
    (∀ {s'}, bodyEffect eff is s = .next s' → exec reff (ks ++ kss) 0 s = exec reff kss 0 s') ∧
    (∀ {l s'}, bodyEffect eff is s = .goto l s' → ∃ n, StartsAt label body bs l n ∧
      exec reff (ks ++ kss) 0 s = exec reff kss n s') ∧
    ∀ {r}, bodyEffect eff is s = .done r → exec reff (ks ++ kss) 0 s = some r := by
  induction is generalizing ks s with
  | nil =>
    rw [show ks = [] from h]
    refine ⟨fun h => ?_, (fun h => by cases h), fun h => by cases h⟩
    cases h
    rfl
  | cons i is ih =>
    obtain ⟨k, ks', rfl, hi, h'⟩ := h
    rw [List.cons_append, bodyEffect]
    cases he : eff i s with
    | next s₁ =>
      rw [exec_of_next (hi.next he)]
      exact ih h'
    | goto l s₁ =>
      obtain ⟨n, hn, hskip⟩ := hi.goto he
      refine ⟨(fun h => by cases h), fun h => ?_, fun h => by cases h⟩
      cases h
      refine ⟨n, hn, ?_⟩
      rw [exec_of_skip hskip, ← h'.length_eq]
      exact exec_append_skip reff ks' kss n s₁
    | done r =>
      refine ⟨(fun h => by cases h), (fun h => by cases h), fun h => ?_⟩
      cases h
      exact exec_of_done (hi.done he) (ks' ++ kss)
    | stuck => exact ⟨(fun h => by cases h), (fun h => by cases h), fun h => by cases h⟩

variable {R : ℓ → σ → ρ → Prop}

/-- **Rule for assembled code.**  If every block keeps what is expected at its label, then
the assembled code, started at any of the blocks, gives what is expected there. -/
theorem exec_of_sound {bs : List β} {ks : List κ}
    (hsound : ∀ b ∈ bs, Sound label (fun b => bodyEffect eff (body b)) R b)
    (h : Assembled label body eff reff bs ks) {l : ℓ} {n : ℕ}
    (hl : StartsAt label body bs l n) {s : σ} {r : ρ} (hr : R l s r) :
    exec reff ks n s = some r := by
  obtain ⟨xs, c, ys, rfl, rfl, rfl⟩ := hl
  obtain ⟨ks₁, ks₂, rfl, hlen, h₂⟩ := h.split
  rw [← hlen, ← Nat.add_zero ks₁.length, exec_append_skip]
  have hsound' : ∀ b ∈ c :: ys, Sound label (fun b => bodyEffect eff (body b)) R b :=
    fun b hb => hsound b (List.mem_append_right xs hb)
  clear hsound h hlen
  induction hm : ys.length using Nat.strongRecOn generalizing c ys ks₂ s with
  | _ m ih =>
    obtain ⟨ks', kss, rfl, hb, h'⟩ := h₂
    obtain ⟨-, hgoto, hdone⟩ := exec_body hb kss
    rcases hsound' c List.mem_cons_self s r hr with he | ⟨l, s', he, hc⟩
    · exact hdone he
    · obtain ⟨n, ⟨us, d, vs, rfl, rfl, rfl⟩, hexec⟩ := hgoto he
      obtain ⟨ks₃, ks₄, rfl, hlen, h₄⟩ := h'.split
      rw [hexec, ← hlen, ← Nat.add_zero ks₃.length, exec_append_skip]
      refine ih vs.length ?_ d vs hc ks₄ h₄ ?_ rfl
      · rw [← hm, List.length_append, List.length_cons]
        omega
      · intro b hb
        exact hsound' b (List.mem_cons_of_mem c (List.mem_append_right us hb))

end Assembly

end LabelledCode
