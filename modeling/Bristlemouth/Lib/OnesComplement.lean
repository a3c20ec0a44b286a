import Mathlib.Data.Int.ModEq

/-!
# One's-complement sums

Sixteen-bit end-around-carry arithmetic on natural numbers. A folded nonzero
sum is the representative in `1..0xFFFF` of its class modulo `0xFFFF`, and
exchanging the two bytes of a word multiplies that class by `256`.
-/

set_option autoImplicit false

namespace OnesComplement

/-- Fold the carries of `n` down into sixteen bits. -/
def fold (n : Nat) : Nat :=
  if h : n / 65536 = 0 then n else fold (n % 65536 + n / 65536)
termination_by n
decreasing_by omega

theorem fold_of_lt {n : Nat} (h : n < 65536) : fold n = n := by
  rw [fold, dif_pos (by omega)]

theorem fold_of_le {n : Nat} (h : 65536 ≤ n) : fold n = fold (n % 65536 + n / 65536) := by
  rw [fold, dif_neg (by omega)]

theorem fold_lt (n : Nat) : fold n < 65536 := by
  induction n using Nat.strongRecOn with
  | ind n ih =>
    by_cases h : n < 65536
    · rw [fold_of_lt h]
      exact h
    · rw [fold_of_le (by omega)]
      exact ih _ (by omega)

theorem fold_pos {n : Nat} (h : 0 < n) : 0 < fold n := by
  induction n using Nat.strongRecOn with
  | ind n ih =>
    by_cases hn : n < 65536
    · rw [fold_of_lt hn]
      exact h
    · rw [fold_of_le (by omega)]
      exact ih _ (by omega) (by omega)

theorem fold_modEq (n : Nat) : fold n ≡ n [MOD 65535] := by
  induction n using Nat.strongRecOn with
  | ind n ih =>
    by_cases hn : n < 65536
    · rw [fold_of_lt hn]
    · rw [fold_of_le (by omega)]
      refine (ih _ (by omega)).trans ?_
      change (n % 65536 + n / 65536) % 65535 = n % 65535
      omega

/-- Nonzero words are told apart by their class. -/
theorem eq_of_modEq {a b : Nat} (ha : 0 < a) (ha' : a < 65536) (hb : 0 < b) (hb' : b < 65536)
    (h : a ≡ b [MOD 65535]) : a = b := by
  change a % 65535 = b % 65535 at h
  omega

/-- End-around-carry addition of two words. -/
def add (a b : Nat) : Nat := if a + b < 65536 then a + b else a + b - 65535

/-- The words added up, every carry taken around at once. -/
def sum (words : List Nat) : Nat := words.foldl add 0

theorem add_eq_fold {a b : Nat} (ha : a < 65536) (hb : b < 65536) : add a b = fold (a + b) := by
  by_cases h : a + b < 65536
  · rw [add, if_pos h, fold_of_lt h]
  · have hcarry : (a + b) % 65536 + (a + b) / 65536 = a + b - 65535 := by omega
    rw [add, if_neg h, fold_of_le (by omega), hcarry, fold_of_lt (by omega)]

/-- Carries may be folded in between. -/
theorem fold_fold_add (n m : Nat) : fold (fold n + m) = fold (n + m) := by
  by_cases hzero : n = 0
  · rw [hzero, fold_of_lt (by decide : 0 < 65536)]
  · have hpos := fold_pos (Nat.pos_of_ne_zero hzero)
    apply eq_of_modEq (fold_pos (by omega)) (fold_lt _) (fold_pos (by omega)) (fold_lt _)
    exact (fold_modEq _).trans (((fold_modEq n).add_right m).trans (fold_modEq _).symm)

/-- Carries that are deferred to the end come to the same. -/
theorem sum_eq_fold {words : List Nat} (h : ∀ w ∈ words, w < 65536) : sum words = fold words.sum := by
  have hfoldl : ∀ (words : List Nat) (a : Nat), a < 65536 → (∀ w ∈ words, w < 65536) →
      words.foldl add a = fold (a + words.sum) := by
    intro words
    induction words with
    | nil =>
      intro a ha _
      exact (fold_of_lt ha).symm
    | cons w words ih =>
      intro a ha hwords
      have hw := hwords w List.mem_cons_self
      have hadd := add_eq_fold ha hw
      rw [List.foldl_cons, hadd, ih _ (fold_lt _) fun x hx => hwords x (List.mem_cons_of_mem w hx),
        fold_fold_add, List.sum_cons, Nat.add_assoc]
  rw [sum, hfoldl words 0 (by decide) h, Nat.zero_add]

/-- The two bytes of a word exchanged. -/
def swap (x : Nat) : Nat := x % 256 * 256 + x / 256 % 256

theorem swap_lt (x : Nat) : swap x < 65536 := by
  unfold swap
  omega

theorem swap_swap {x : Nat} (hx : x < 65536) : swap (swap x) = x := by
  have hhigh : x / 256 % 256 = x / 256 := Nat.mod_eq_of_lt (by omega)
  have hlow : (x % 256 * 256 + x / 256) % 256 = x / 256 := by omega
  have hrest : (x % 256 * 256 + x / 256) / 256 % 256 = x % 256 := by omega
  unfold swap
  rw [hhigh, hlow, hrest]
  omega

theorem swap_pos {x : Nat} (h : 0 < x) (hx : x < 65536) : 0 < swap x := by
  unfold swap
  omega

theorem swap_modEq {x : Nat} (hx : x < 65536) : swap x ≡ 256 * x [MOD 65535] := by
  have hx' : x / 256 % 256 = x / 256 := Nat.mod_eq_of_lt (by omega)
  have hsplit : 256 * x = swap x + 65535 * (x / 256) := by
    rw [swap, hx']
    omega
  rw [hsplit]
  exact (Nat.modEq_iff_dvd' (by omega)).mpr ⟨x / 256, by omega⟩

theorem swap_compl {x : Nat} (hx : x < 65536) : swap (65535 - x) = 65535 - swap x := by
  unfold swap
  omega

/-- A sum of the class of zero is all ones once it is folded: what a receiver checks. -/
theorem fold_eq_ones {n : Nat} (hpos : 0 < n) (h : n % 65535 = 0) : fold n = 65535 := by
  apply eq_of_modEq (fold_pos hpos) (fold_lt n) (by decide) (by decide)
  refine (fold_modEq n).trans ?_
  change n % 65535 = 65535 % 65535
  omega

/-- Adding `256 * p` to a sum adds `p` to its folded and byte-swapped value, as classes. -/
theorem swap_fold_add (s p : Nat) :
    swap (fold (s + 256 * p)) ≡ swap (fold s) + p [MOD 65535] := by
  have h₁ : swap (fold (s + 256 * p)) ≡ 256 * (s + 256 * p) [MOD 65535] :=
    (swap_modEq (fold_lt _)).trans ((fold_modEq _).mul_left _)
  have h₂ : swap (fold s) ≡ 256 * s [MOD 65535] :=
    (swap_modEq (fold_lt _)).trans ((fold_modEq _).mul_left _)
  have h₃ : 256 * (s + 256 * p) ≡ 256 * s + p [MOD 65535] := by
    change 256 * (s + 256 * p) % 65535 = (256 * s + p) % 65535
    omega
  exact h₁.trans (h₃.trans (h₂.symm.add_right p))

/--
The patch is exact unless it carries out of the word. With a carry the patched
word is one short, because the end-around carry is lost.
-/
theorem swap_fold_add_eq_iff {s p : Nat} (hs : 0 < s) (hp : p < 65536) :
    swap (fold (s + 256 * p)) = (swap (fold s) + p) % 65536 ↔ swap (fold s) + p < 65536 := by
  have hlt := swap_lt (fold (s + 256 * p))
  have hpos : 0 < swap (fold (s + 256 * p)) := swap_pos (fold_pos (by omega)) (fold_lt _)
  have hpos' : 0 < swap (fold s) := swap_pos (fold_pos hs) (fold_lt _)
  have hlt' := swap_lt (fold s)
  have hmod := swap_fold_add s p
  constructor
  · intro h
    by_contra hc
    change swap (fold (s + 256 * p)) % 65535 = (swap (fold s) + p) % 65535 at hmod
    omega
  · intro h
    rw [Nat.mod_eq_of_lt h]
    exact eq_of_modEq hpos hlt (by omega) h hmod

end OnesComplement
