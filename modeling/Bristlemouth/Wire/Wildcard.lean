import Bristlemouth.Lib.Bytes
import Bristlemouth.Lib.Glob

/-!
# Topic matching

`bm_wildcard_match` of `util.rs`, with its indices checked and its loops on fuel, and what it decides:
a `*` of the pattern that meets a `*` of the string is taken for that byte alone. In a run in which the
two never meet it decides the glob.
-/

set_option autoImplicit false

namespace Bristlemouth.Wildcard

open Glob

def star : UInt8 := 0x2a
def question : UInt8 := 0x3f

/-- How a call ends without a result. -/
inductive Fault where
  | outOfBounds
  | diverges
deriving DecidableEq, Repr

/-- `bytes[i]`. -/
def index (bytes : Bytes) (i : Nat) : Except Fault UInt8 :=
  match bytes[i]? with
  | some b => .ok b
  | none => .error .outOfBounds

/-- The variables of the loop. -/
structure Matching where
  starIdx : Option Nat
  matchIdx : Nat
  i : Nat
  j : Nat
deriving DecidableEq, Repr

/-- `j < pattern_len && (pattern[j] == b'?' || s[i] == pattern[j])` -/
def takesByte (s pattern : Bytes) (m : Matching) : Except Fault Bool :=
  if m.j < pattern.length then do
    if (← index pattern m.j) = question then return true
    else return decide ((← index s m.i) = (← index pattern m.j))
  else .ok false

/-- `j < pattern_len && pattern[j] == b'*'` -/
def atStar (pattern : Bytes) (j : Nat) : Except Fault Bool :=
  if j < pattern.length then do return decide ((← index pattern j) = star) else .ok false

/-- One round of the loop; it gives `none` where the source breaks out. -/
def round (s pattern : Bytes) (m : Matching) : Except Fault (Option Matching) := do
  if (← takesByte s pattern m) then return some { m with i := m.i + 1, j := m.j + 1 }
  else if (← atStar pattern m.j) then
    return some { m with starIdx := some m.j, j := m.j + 1, matchIdx := m.i }
  else
    match m.starIdx with
    | some starIdx =>
      -- back to the wildcard, with one byte more
      return some { m with j := starIdx + 1, matchIdx := m.matchIdx + 1, i := m.matchIdx + 1 }
    | none => return none

def matchLoop (s pattern : Bytes) : Nat → Matching → Except Fault Matching
  | 0, _ => .error .diverges
  | fuel + 1, m =>
    if m.i < s.length then
      match round s pattern m with
      | .error e => .error e
      | .ok none => .ok m
      | .ok (some m') => matchLoop s pattern fuel m'
    else .ok m

/-- The loop over the stars at the end of the pattern. -/
def skipStars (pattern : Bytes) : Nat → Nat → Except Fault Nat
  | 0, _ => .error .diverges
  | fuel + 1, j =>
    match atStar pattern j with
    | .error e => .error e
    | .ok true => skipStars pattern fuel (j + 1)
    | .ok false => .ok j

/-- More rounds than the loop can make. -/
def roundsFor (s pattern : Bytes) : Nat := (pattern.length + 1) * ((s.length + 1) * (pattern.length + 1))

def bmWildcardMatch (s pattern : Bytes) : Except Fault Bool := do
  let m ← matchLoop s pattern (roundsFor s pattern) ⟨none, 0, 0, 0⟩
  let j ← skipStars pattern (pattern.length + 1) m.j
  return decide (j = pattern.length)

/-- What a byte of the pattern stands for. -/
def tokenOf (b : UInt8) : Token UInt8 :=
  if b = question then .one else if b = star then .many else .lit b

def tokens (pattern : Bytes) : List (Token UInt8) := pattern.map tokenOf

/-- `*` is any run of bytes, `?` any one byte, and every other byte itself. -/
def Globs (pattern s : Bytes) : Prop := Plain (tokens pattern) s

/-- The matcher's own reading. -/
def Reads (pattern s : Bytes) : Prop := Matches (· = star) (tokens pattern) s

theorem takes_iff {fixed : UInt8 → Prop} {p a : UInt8} (hfixed : p = star → (fixed a ↔ a = star)) :
    Takes fixed (tokenOf p) a ↔ p = question ∨ a = p := by
  unfold tokenOf
  split_ifs with hq hs
  · exact ⟨fun _ => .inl hq, fun _ => .one a⟩
  · have hsame : fixed a ↔ a = p := by rw [hfixed hs, hs]
    constructor
    · intro h
      cases h with
      | many ha => exact .inr (hsame.mp ha)
    · rintro (h | h)
      · exact absurd h hq
      · exact .many (hsame.mpr h)
  · constructor
    · intro h
      cases h
      exact .inr rfl
    · rintro (h | rfl)
      · exact absurd h hq
      · exact .lit a

theorem tokenOf_eq_many {p : UInt8} : tokenOf p = .many ↔ p = star := by
  unfold tokenOf
  split_ifs with hq hs
  · subst hq
    exact ⟨fun h => (by cases h), fun h => (by cases h)⟩
  · exact ⟨fun _ => hs, fun _ => rfl⟩
  · exact ⟨fun h => (by cases h), fun h => absurd h hs⟩

section
variable {s pattern : Bytes} {m : Matching} {fixed : UInt8 → Prop}

theorem index_of_drop {bytes rest : Bytes} {i : Nat} {b : UInt8} (h : bytes.drop i = b :: rest) :
    index bytes i = .ok b := by
  have hget := congrArg (fun l : Bytes => l[0]?) h
  simp only [List.getElem?_drop, Nat.add_zero, List.getElem?_cons_zero] at hget
  rw [index, hget]

theorem lt_of_drop {bytes rest : Bytes} {i : Nat} {b : UInt8} (h : bytes.drop i = b :: rest) :
    i < bytes.length := by
  have hlen := congrArg List.length h
  rw [List.length_drop, List.length_cons] at hlen
  omega

theorem atStar_of_drop {j : Nat} {p : UInt8} {q : Bytes} (h : pattern.drop j = p :: q) :
    atStar pattern j = .ok (decide (p = star)) := by
  rw [atStar, if_pos (lt_of_drop h), index_of_drop h]
  rfl

theorem atStar_end {j : Nat} (h : pattern.length ≤ j) : atStar pattern j = .ok false :=
  if_neg (not_lt.mpr h)

theorem takesByte_of_drop {p a : UInt8} {q r : Bytes} (hp : pattern.drop m.j = p :: q)
    (hs : s.drop m.i = a :: r) : takesByte s pattern m = .ok (decide (p = question ∨ a = p)) := by
  rw [takesByte, if_pos (lt_of_drop hp), index_of_drop hp, index_of_drop hs]
  by_cases hq : p = question
  · simp [hq, bind, Except.bind, pure, Except.pure]
  · simp [hq, bind, Except.bind, pure, Except.pure]

/-- The comparison of the loop is the reading's: what the code takes here, the token takes. -/
def Agrees (fixed : UInt8 → Prop) (s pattern : Bytes) (m : Matching) : Prop :=
  ∀ p q a r, pattern.drop m.j = p :: q → s.drop m.i = a :: r →
    (Takes fixed (tokenOf p) a ↔ p = question ∨ a = p)

/-- What a round does where the pattern does not go on: back to the latest star, if there is one. -/
def retry (m : Matching) : Option Matching :=
  m.starIdx.map fun starIdx =>
    { m with j := starIdx + 1, matchIdx := m.matchIdx + 1, i := m.matchIdx + 1 }

theorem round_takes {p a : UInt8} {q r : Bytes} (hp : pattern.drop m.j = p :: q) (hs : s.drop m.i = a :: r)
    (ht : p = question ∨ a = p) :
    round s pattern m = .ok (some { m with i := m.i + 1, j := m.j + 1 }) := by
  rw [round, takesByte_of_drop hp hs, decide_eq_true ht]
  rfl

theorem round_star {p a : UInt8} {q r : Bytes} (hp : pattern.drop m.j = p :: q) (hs : s.drop m.i = a :: r)
    (ht : ¬ (p = question ∨ a = p)) (hmany : tokenOf p = .many) :
    round s pattern m = .ok (some { m with starIdx := some m.j, j := m.j + 1, matchIdx := m.i }) := by
  rw [round, takesByte_of_drop hp hs, decide_eq_false ht, atStar_of_drop hp,
    decide_eq_true (tokenOf_eq_many.mp hmany)]
  rfl

theorem round_stuck {p a : UInt8} {q r : Bytes} (hp : pattern.drop m.j = p :: q) (hs : s.drop m.i = a :: r)
    (ht : ¬ (p = question ∨ a = p)) (hmany : tokenOf p ≠ .many) :
    round s pattern m = .ok (retry m) := by
  rw [round, takesByte_of_drop hp hs, decide_eq_false ht, atStar_of_drop hp,
    decide_eq_false (mt tokenOf_eq_many.mpr hmany)]
  obtain ⟨starIdx, matchIdx, i, j⟩ := m
  cases starIdx with
  | none => rfl
  | some starIdx => rfl

theorem round_end (h : pattern.length ≤ m.j) : round s pattern m = .ok (retry m) := by
  rw [round, takesByte, if_neg (not_lt.mpr h), atStar_end h]
  obtain ⟨starIdx, matchIdx, i, j⟩ := m
  cases starIdx with
  | none => rfl
  | some starIdx => rfl

/-- A reading of the string, or that the pattern runs out along it. -/
def Accepts (fixed : UInt8 → Prop) (pattern s : Bytes) : Prop :=
  Matches fixed (tokens pattern) s ∨ Follows fixed (tokens pattern) s

/-- From `fj` and `fi` to `j` and `i` the pattern takes the string byte by byte. -/
def Segment (fixed : UInt8 → Prop) (s pattern : Bytes) (fj fi j i : Nat) : Prop :=
  ∃ seg part, (tokens pattern).drop fj = seg ++ (tokens pattern).drop j ∧ s.drop fi = part ++ s.drop i ∧
    Along fixed seg part ∧ j = fj + seg.length ∧ i = fi + part.length

/-- Where the current attempt began. -/
def base (m : Matching) : Nat × Nat :=
  match m.starIdx with
  | none => (0, 0)
  | some starIdx => (starIdx + 1, m.matchIdx)

structure Inv (fixed : UInt8 → Prop) (s pattern : Bytes) (m : Matching) : Prop where
  i_le : m.i ≤ s.length
  j_le : m.j ≤ pattern.length
  segment : Segment fixed s pattern (base m).1 (base m).2 m.j m.i
  goal : m.starIdx.isSome → (Accepts fixed pattern s ↔
    ∃ k, Matches fixed ((tokens pattern).drop (base m).1) (s.drop ((base m).2 + k)))

theorem tokens_drop {j : Nat} {p : UInt8} {q : Bytes} (h : pattern.drop j = p :: q) :
    (tokens pattern).drop j = tokenOf p :: (tokens pattern).drop (j + 1) := by
  have hq : pattern.drop (j + 1) = q := by
    rw [← List.drop_drop, h]
    rfl
  rw [tokens, ← List.map_drop, ← List.map_drop, h, hq, List.map_cons]

theorem drop_eq_cons {a : UInt8} {r : Bytes} {i : Nat} (h : s.drop i = a :: r) :
    s.drop i = a :: s.drop (i + 1) := by
  have hr : s.drop (i + 1) = r := by
    rw [← List.drop_drop, h]
    rfl
  rw [h, hr]

theorem Segment.refl (fixed : UInt8 → Prop) (s pattern : Bytes) (j i : Nat) :
    Segment fixed s pattern j i j i :=
  ⟨[], [], rfl, rfl, .nil, rfl, rfl⟩

theorem Segment.step {fj fi j i : Nat} {p a : UInt8} {q r : Bytes} (h : Segment fixed s pattern fj fi j i)
    (hp : pattern.drop j = p :: q) (hs : s.drop i = a :: r) (ht : Takes fixed (tokenOf p) a) :
    Segment fixed s pattern fj fi (j + 1) (i + 1) := by
  obtain ⟨seg, part, hseg, hpart, halong, hj, hi⟩ := h
  refine ⟨seg ++ [tokenOf p], part ++ [a], ?_, ?_, ?_, ?_, ?_⟩
  · rw [hseg, tokens_drop hp, List.append_assoc, List.singleton_append]
  · rw [hpart, drop_eq_cons hs, List.append_assoc, List.singleton_append]
  · exact List.rel_append halong (.cons ht .nil)
  · rw [List.length_append, List.length_singleton, hj, Nat.add_assoc]
  · rw [List.length_append, List.length_singleton, hi, Nat.add_assoc]

theorem Segment.matches_iff {fj fi j i : Nat} (h : Segment fixed s pattern fj fi j i) :
    Matches fixed ((tokens pattern).drop fj) (s.drop fi) ↔
      Matches fixed ((tokens pattern).drop j) (s.drop i) := by
  obtain ⟨seg, part, hseg, hpart, halong, -, -⟩ := h
  rw [hseg, hpart, matches_along_iff halong]

theorem Segment.behind {fj fi j i : Nat} (h : Segment fixed s pattern fj fi j i) {k : Nat}
    (hm : Matches fixed ((tokens pattern).drop fj) (s.drop (fi + k))) :
    ∃ y, Matches fixed ((tokens pattern).drop j) (s.drop (i + y)) := by
  obtain ⟨seg, part, hseg, hpart, halong, -, -⟩ := h
  rw [hseg, ← List.drop_drop, hpart] at hm
  obtain ⟨y, hy⟩ := matches_behind halong k hm
  rw [List.drop_drop] at hy
  exact ⟨y, hy⟩

theorem inv_start (fixed : UInt8 → Prop) (s pattern : Bytes) : Inv fixed s pattern ⟨none, 0, 0, 0⟩ where
  i_le := Nat.zero_le _
  j_le := Nat.zero_le _
  segment := Segment.refl fixed s pattern 0 0
  goal := fun h => by cases h

theorem inv_takes {p a : UInt8} {q r : Bytes} (h : Inv fixed s pattern m) (hp : pattern.drop m.j = p :: q)
    (hs : s.drop m.i = a :: r) (ht : Takes fixed (tokenOf p) a) :
    Inv fixed s pattern { m with i := m.i + 1, j := m.j + 1 } where
  i_le := lt_of_drop hs
  j_le := lt_of_drop hp
  segment := h.segment.step hp hs ht
  goal := h.goal

/-- With no star so far, everything is decided from here on. -/
theorem accepts_iff_of_segment {j i : Nat} (h : Segment fixed s pattern 0 0 j i) :
    Accepts fixed pattern s ↔ Matches fixed ((tokens pattern).drop j) (s.drop i) ∨
      Follows fixed ((tokens pattern).drop j) (s.drop i) := by
  have hmatches := h.matches_iff
  obtain ⟨seg, part, hseg, hpart, halong, -, -⟩ := h
  rw [List.drop_zero] at hseg hpart
  rw [Accepts]
  refine or_congr hmatches ?_
  have hfollows := @follows_along_iff _ fixed seg ((tokens pattern).drop j) part (s.drop i) halong
  rw [← hseg, ← hpart] at hfollows
  exact hfollows

/-- At a star that takes no byte, the attempt may be given up for one that begins behind it. -/
theorem inv_star {p a : UInt8} {q r : Bytes} (h : Inv fixed s pattern m) (hp : pattern.drop m.j = p :: q)
    (hs : s.drop m.i = a :: r) (ht : ¬ Takes fixed (tokenOf p) a) (hmany : tokenOf p = .many) :
    Inv fixed s pattern { m with starIdx := some m.j, j := m.j + 1, matchIdx := m.i } where
  i_le := h.i_le
  j_le := lt_of_drop hp
  segment := Segment.refl fixed s pattern (m.j + 1) m.i
  goal := by
    intro _
    change Accepts fixed pattern s ↔
      ∃ k, Matches fixed ((tokens pattern).drop (m.j + 1)) (s.drop (m.i + k))
    have hfree : Free fixed (s.drop m.i) := by
      intro b hb
      rw [hs] at hb
      cases hb
      intro hfixed
      rw [hmany] at ht
      exact ht (.many hfixed)
    have htokens := tokens_drop hp
    rw [hmany] at htokens
    have hrun : Matches fixed ((tokens pattern).drop m.j) (s.drop m.i) ↔
        ∃ k, Matches fixed ((tokens pattern).drop (m.j + 1)) (s.drop (m.i + k)) := by
      rw [htokens, matches_many_iff hfree]
      simp only [List.drop_drop]
    cases hstar : m.starIdx with
    | none =>
      have hsegment := h.segment
      rw [base, hstar] at hsegment
      rw [accepts_iff_of_segment hsegment, ← hrun, or_iff_left]
      rw [htokens, hs, follows_cons_iff]
      rw [hmany] at ht
      exact fun hf => ht hf.1
    | some starIdx =>
      rw [h.goal (by rw [hstar]; rfl)]
      constructor
      · rintro ⟨k, hk⟩
        obtain ⟨y, hy⟩ := h.segment.behind hk
        rw [htokens] at hy
        obtain ⟨z, hz⟩ := exists_of_many hy
        rw [List.drop_drop, Nat.add_assoc] at hz
        exact ⟨y + z, hz⟩
      · intro hk
        exact ⟨0, h.segment.matches_iff.mpr (hrun.mpr hk)⟩

theorem inv_retry {m' : Matching} {a : UInt8} {r : Bytes} (h : Inv fixed s pattern m) (hs : s.drop m.i = a :: r)
    (hno : ¬ Matches fixed ((tokens pattern).drop m.j) (s.drop m.i)) (hretry : retry m = some m') :
    Inv fixed s pattern m' := by
  obtain ⟨starIdx, hstar, rfl⟩ := Option.map_eq_some_iff.mp hretry
  have hlt := lt_of_drop hs
  have hsegment := h.segment
  have hgoal := h.goal (by rw [hstar]; rfl)
  rw [base, hstar] at hsegment hgoal
  have hj := h.j_le
  have hmatches := hsegment.matches_iff
  obtain ⟨seg, part, -, -, -, hjeq, hieq⟩ := hsegment
  refine ⟨?_, ?_, ?_, ?_⟩
  · change m.matchIdx + 1 ≤ s.length
    dsimp only at hieq
    omega
  · change starIdx + 1 ≤ pattern.length
    dsimp only at hjeq
    omega
  · rw [base, hstar]
    exact Segment.refl fixed s pattern _ _
  · intro _
    rw [base, hstar, hgoal]
    constructor
    · rintro ⟨k, hk⟩
      cases k with
      | zero => exact absurd (hmatches.mp hk) hno
      | succ k =>
        refine ⟨k, ?_⟩
        dsimp only at hk ⊢
        rw [show m.matchIdx + 1 + k = m.matchIdx + (k + 1) by omega]
        exact hk
    · rintro ⟨k, hk⟩
      refine ⟨k + 1, ?_⟩
      dsimp only at hk ⊢
      rw [show m.matchIdx + (k + 1) = m.matchIdx + 1 + k by omega]
      exact hk

/-! ### The loops end -/

/-- What is left of the pattern behind the star, of the string for it, and of the pattern in this attempt. -/
def left (s pattern : Bytes) (m : Matching) : Nat :=
  (pattern.length - (base m).1) * ((s.length + 1) * (pattern.length + 1)) +
    ((s.length - (base m).2) * (pattern.length + 1) + (pattern.length - m.j))

theorem place_lt {a b c a' b' c' A B : Nat} (hb : b' < A) (hc : c' < B)
    (h : a' < a ∨ a' = a ∧ (b' < b ∨ b' = b ∧ c' < c)) :
    a' * (A * B) + (b' * B + c') < a * (A * B) + (b * B + c) := by
  rcases h with ha | ⟨rfl, hb' | ⟨rfl, hc'⟩⟩
  · have hlow : b' * B + c' < A * B := calc
      b' * B + c' < b' * B + B := Nat.add_lt_add_left hc _
      _ = (b' + 1) * B := (Nat.succ_mul b' B).symm
      _ ≤ A * B := Nat.mul_le_mul_right B hb
    have hhigh : (a' + 1) * (A * B) ≤ a * (A * B) := Nat.mul_le_mul_right _ ha
    rw [Nat.succ_mul] at hhigh
    omega
  · have hmid : (b' + 1) * B ≤ b * B := Nat.mul_le_mul_right B hb'
    rw [Nat.succ_mul] at hmid
    omega
  · omega

/-- The loop at its end: the string is used up, or there is no star to go back to. -/
def Done (fixed : UInt8 → Prop) (s pattern : Bytes) (m : Matching) : Prop :=
  m.i = s.length ∨ m.starIdx = none ∧ ∃ a r, s.drop m.i = a :: r ∧
    (pattern.length ≤ m.j ∨ ∃ p q, pattern.drop m.j = p :: q ∧ ¬ Takes fixed (tokenOf p) a ∧
      tokenOf p ≠ .many)

theorem Inv.base_le (h : Inv fixed s pattern m) : (base m).1 ≤ m.j ∧ (base m).2 ≤ m.i := by
  obtain ⟨seg, part, -, -, -, hj, hi⟩ := h.segment
  omega

theorem left_retry {m' : Matching} {a : UInt8} {r : Bytes} (h : Inv fixed s pattern m)
    (hs : s.drop m.i = a :: r) (hretry : retry m = some m') : left s pattern m' < left s pattern m := by
  obtain ⟨starIdx, hstar, rfl⟩ := Option.map_eq_some_iff.mp hretry
  have hlt := lt_of_drop hs
  have hle := h.base_le
  have hbase : base m = (starIdx + 1, m.matchIdx) := by rw [base, hstar]
  have hbase' : base { m with j := starIdx + 1, matchIdx := m.matchIdx + 1, i := m.matchIdx + 1 } =
      (starIdx + 1, m.matchIdx + 1) := by rw [base, hstar]
  rw [hbase] at hle
  rw [left, left, hbase, hbase']
  dsimp only at hle ⊢
  exact place_lt (by omega) (by omega) (.inr ⟨rfl, .inl (by omega)⟩)

/-- A round goes on with less left, or it ends the loop. -/
theorem round_inv {a : UInt8} {r : Bytes} (h : Inv fixed s pattern m) (hagrees : Agrees fixed s pattern m)
    (hs : s.drop m.i = a :: r) :
    (∃ m', round s pattern m = .ok (some m') ∧ Inv fixed s pattern m' ∧ left s pattern m' < left s pattern m) ∨
      round s pattern m = .ok none ∧ Done fixed s pattern m := by
  have hi := lt_of_drop hs
  have hle := h.base_le
  -- where the pattern does not go on
  have hfail : ¬ Matches fixed ((tokens pattern).drop m.j) (s.drop m.i) →
      round s pattern m = .ok (retry m) →
      (pattern.length ≤ m.j ∨ ∃ p q, pattern.drop m.j = p :: q ∧ ¬ Takes fixed (tokenOf p) a ∧
        tokenOf p ≠ .many) →
      (∃ m', round s pattern m = .ok (some m') ∧ Inv fixed s pattern m' ∧ left s pattern m' < left s pattern m) ∨
        round s pattern m = .ok none ∧ Done fixed s pattern m := by
    intro hno hround hwhy
    cases hretry : retry m with
    | none =>
      refine .inr ⟨hretry ▸ hround, .inr ⟨Option.map_eq_none_iff.mp hretry, a, r, hs, hwhy⟩⟩
    | some m' =>
      exact .inl ⟨m', hretry ▸ hround, inv_retry h hs hno hretry, left_retry h hs hretry⟩
  cases hp : pattern.drop m.j with
  | nil =>
    have hj := List.drop_eq_nil_iff.mp hp
    refine hfail ?_ (round_end hj) (.inl hj)
    rw [tokens, ← List.map_drop, hp, hs]
    exact not_matches_nil
  | cons p q =>
    have hj := lt_of_drop hp
    have htakes := hagrees p q a r hp hs
    by_cases ht : Takes fixed (tokenOf p) a
    · refine .inl ⟨_, round_takes hp hs (htakes.mp ht), inv_takes h hp hs ht, ?_⟩
      have hsame : base { m with i := m.i + 1, j := m.j + 1 } = base m := rfl
      rw [left, left, hsame]
      dsimp only
      exact place_lt (by omega) (by omega) (.inr ⟨rfl, .inr ⟨rfl, by omega⟩⟩)
    · by_cases hmany : tokenOf p = .many
      · refine .inl ⟨_, round_star hp hs (mt htakes.mpr ht) hmany, inv_star h hp hs ht hmany, ?_⟩
        have hnew : base { m with starIdx := some m.j, j := m.j + 1, matchIdx := m.i } = (m.j + 1, m.i) := rfl
        rw [left, left, hnew]
        dsimp only
        exact place_lt (by omega) (by omega) (.inl (by omega))
      · refine hfail ?_ (round_stuck hp hs (mt htakes.mpr ht) hmany) (.inr ⟨p, q, hp, ht, hmany⟩)
        rw [tokens_drop hp, hs]
        exact not_matches_cons ht hmany

/-- The variables at the head of the loop, in the run on `s` and `pattern`. -/
inductive Visits (s pattern : Bytes) : Matching → Prop
  | start : Visits s pattern ⟨none, 0, 0, 0⟩
  | next {m m' : Matching} (h : Visits s pattern m) (hi : m.i < s.length)
      (hround : round s pattern m = .ok (some m')) : Visits s pattern m'

theorem matchLoop_ends (hagrees : ∀ m, Visits s pattern m → Agrees fixed s pattern m) (fuel : Nat)
    (hvisits : Visits s pattern m) (h : Inv fixed s pattern m) (hfuel : left s pattern m < fuel) :
    ∃ m', matchLoop s pattern fuel m = .ok m' ∧ Inv fixed s pattern m' ∧ Done fixed s pattern m' := by
  induction fuel generalizing m with
  | zero => omega
  | succ fuel ih =>
    rw [matchLoop]
    by_cases hi : m.i < s.length
    · rw [if_pos hi]
      obtain ⟨a, r, hs⟩ : ∃ a r, s.drop m.i = a :: r := ⟨_, _, List.drop_eq_getElem_cons hi⟩
      rcases round_inv h (hagrees m hvisits) hs with ⟨m', hround, hinv, hless⟩ | ⟨hround, hdone⟩
      · rw [hround]
        exact ih (hvisits.next hi hround) hinv (by omega)
      · rw [hround]
        exact ⟨m, rfl, h, hdone⟩
    · rw [if_neg hi]
      have hle := h.i_le
      exact ⟨m, rfl, h, .inl (by omega)⟩

/-- What is left of the pattern decides. -/
theorem accepts_of_done (h : Inv fixed s pattern m) (hdone : Done fixed s pattern m) :
    Accepts fixed pattern s ↔ ∀ t ∈ (tokens pattern).drop m.j, t = .many := by
  have hsegment := h.segment
  rcases hdone with hi | ⟨hstar, a, r, hs, hwhy⟩
  · have hend : ∀ y, s.drop (m.i + y) = [] := by
      intro y
      rw [List.drop_eq_nil_iff, hi]
      exact Nat.le_add_right ..
    rw [← @matches_end_iff _ fixed]
    cases hstar : m.starIdx with
    | none =>
      rw [base, hstar] at hsegment
      rw [accepts_iff_of_segment hsegment, show s.drop m.i = [] from hend 0]
      refine or_iff_left_of_imp fun hf => ?_
      rw [follows_end_iff.mp hf]
      exact .nil
    | some starIdx =>
      rw [h.goal (by rw [hstar]; rfl)]
      constructor
      · rintro ⟨k, hk⟩
        obtain ⟨y, hy⟩ := hsegment.behind hk
        rw [hend y] at hy
        exact hy
      · intro hmatch
        refine ⟨0, hsegment.matches_iff.mpr ?_⟩
        rw [show s.drop m.i = [] from hend 0]
        exact hmatch
  · rw [base, hstar] at hsegment
    rw [accepts_iff_of_segment hsegment, hs]
    rcases hwhy with hj | ⟨p, q, hp, ht, hmany⟩
    · have hnil : (tokens pattern).drop m.j = [] := by
        rw [List.drop_eq_nil_iff, tokens, List.length_map]
        exact hj
      rw [hnil]
      exact ⟨fun _ t ht => absurd ht List.not_mem_nil, fun _ => .inr (follows_nil _)⟩
    · rw [tokens_drop hp, follows_cons_iff]
      constructor
      · rintro (hm | hf)
        · exact absurd hm (not_matches_cons ht hmany)
        · exact absurd hf.1 ht
      · intro hall
        exact absurd (hall _ List.mem_cons_self) hmany

theorem skipStars_ends (fuel j : Nat) (hj : j ≤ pattern.length) (hfuel : pattern.length - j < fuel) :
    ∃ j', skipStars pattern fuel j = .ok j' ∧
      (j' = pattern.length ↔ ∀ t ∈ (tokens pattern).drop j, t = .many) := by
  induction fuel generalizing j with
  | zero => omega
  | succ fuel ih =>
    rw [skipStars]
    cases hp : pattern.drop j with
    | nil =>
      have hend := List.drop_eq_nil_iff.mp hp
      rw [atStar_end hend, tokens, ← List.map_drop, hp]
      exact ⟨j, rfl, fun _ t ht => absurd ht List.not_mem_nil, fun _ => by omega⟩
    | cons p q =>
      have hlt := lt_of_drop hp
      rw [atStar_of_drop hp, tokens_drop hp, List.forall_mem_cons, tokenOf_eq_many]
      by_cases hstar : p = star
      · obtain ⟨j', hj', hiff⟩ := ih (j + 1) hlt (by omega)
        rw [decide_eq_true hstar]
        exact ⟨j', hj', hiff.trans (and_iff_right hstar).symm⟩
      · rw [decide_eq_false hstar]
        exact ⟨j, rfl, fun heq => by omega, fun hall => absurd hall.1 hstar⟩

/-- The matcher ends, indexes nothing out of bounds, and decides a reading that its comparisons agree
with wherever it comes. -/
theorem bmWildcardMatch_agrees (hagrees : ∀ m, Visits s pattern m → Agrees fixed s pattern m) :
    ∃ b, bmWildcardMatch s pattern = .ok b ∧ (b = true ↔ Accepts fixed pattern s) := by
  have hfuel : left s pattern ⟨none, 0, 0, 0⟩ < roundsFor s pattern := by
    have hless := place_lt (a := pattern.length + 1) (b := 0) (c := 0) (Nat.lt_succ_self s.length)
      (Nat.lt_succ_self pattern.length) (.inl (Nat.lt_succ_self pattern.length))
    rw [Nat.zero_mul, Nat.add_zero, Nat.add_zero] at hless
    exact hless
  obtain ⟨m, hm, hinv, hdone⟩ := matchLoop_ends hagrees _ .start (inv_start fixed s pattern) hfuel
  obtain ⟨j, hj, hiff⟩ := skipStars_ends (pattern.length + 1) m.j hinv.j_le (by omega)
  refine ⟨decide (j = pattern.length), ?_, ?_⟩
  · simp only [bmWildcardMatch, hm, hj, bind, Except.bind, pure, Except.pure]
  · rw [decide_eq_true_eq, hiff]
    exact (accepts_of_done hinv hdone).symm

/-- On every input it decides its own reading. -/
theorem bmWildcardMatch_eq (s pattern : Bytes) :
    ∃ b, bmWildcardMatch s pattern = .ok b ∧ (b = true ↔ Accepts (· = star) pattern s) :=
  bmWildcardMatch_agrees fun _ _ _ _ _ _ _ _ => takes_iff fun _ => Iff.rfl

end

/-! ### The reading and the glob -/

/-- A `*` of the pattern stands at a `*` of the string: the comparison takes the two for equal bytes, and
the test for the wildcard behind it is not made. -/
def Meets (s pattern : Bytes) (m : Matching) : Prop := s[m.i]? = some star ∧ pattern[m.j]? = some star

/-- In no round of the run does a `*` of the pattern stand at a `*` of the topic. -/
def StarsApart (topic pattern : Bytes) : Prop := ∀ m, Visits topic pattern m → ¬ Meets topic pattern m

theorem getElem?_of_drop {bytes rest : Bytes} {i : Nat} {b : UInt8} (h : bytes.drop i = b :: rest) :
    bytes[i]? = some b := by
  rw [← List.head?_drop, h]
  rfl

/-- Where the two do not meet, what the code takes is what a glob takes. -/
theorem agrees_of_not_meets {s pattern : Bytes} {m : Matching} (h : ¬ Meets s pattern m) :
    Agrees (fun _ => False) s pattern m := by
  intro p q a r hp hs
  apply takes_iff
  intro hstar
  refine (iff_false_left id).mpr fun ha => h ⟨?_, ?_⟩
  · rw [getElem?_of_drop hs, ha]
  · rw [getElem?_of_drop hp, hstar]

theorem starsApart_of_no_star {topic : Bytes} (htopic : star ∉ topic) (pattern : Bytes) :
    StarsApart topic pattern :=
  fun _ _ hmeets => htopic (List.mem_of_getElem? hmeets.1)

theorem exists_taken {fixed : UInt8 → Prop} {p : List (Token UInt8)} {part : Bytes} {t : Token UInt8}
    (h : Along fixed p part) (ht : t ∈ p) : ∃ a ∈ part, Takes fixed t a := by
  induction h with
  | nil => exact absurd ht List.not_mem_nil
  | @cons t' a p part htakes _ ih =>
    rcases List.mem_cons.mp ht with rfl | hmem
    · exact ⟨a, List.mem_cons_self, htakes⟩
    · obtain ⟨b, hb, htb⟩ := ih hmem
      exact ⟨b, List.mem_cons_of_mem a hb, htb⟩

/-- A glob with a star is not used up byte by byte. -/
theorem globs_iff_accepts {topic pattern : Bytes} (hpattern : star ∈ pattern) :
    Accepts (fun _ => False) pattern topic ↔ Globs pattern topic := by
  refine or_iff_left ?_
  rintro ⟨part, rest, -, halong⟩
  have hmany : Token.many ∈ tokens pattern := List.mem_map.mpr ⟨star, hpattern, rfl⟩
  obtain ⟨a, -, htakes⟩ := exists_taken halong hmany
  cases htakes with
  | many hfalse => exact hfalse

/-- The matcher ends on every input and decides its own reading; in a run in which no `*` of the pattern
stands at a `*` of the topic, that is the glob's. -/
theorem matching_is_glob (topic pattern : Bytes) (hstar : star ∈ pattern) :
    (∃ b, bmWildcardMatch topic pattern = .ok b ∧
      (b = true ↔ Reads pattern topic ∨ Follows (· = star) (tokens pattern) topic)) ∧
    (Reads pattern topic → Globs pattern topic) ∧
    (StarsApart topic pattern →
      ∃ b, bmWildcardMatch topic pattern = .ok b ∧ (b = true ↔ Globs pattern topic)) ∧
    (star ∉ topic → StarsApart topic pattern) := by
  refine ⟨bmWildcardMatch_eq topic pattern, plain_of_matches, ?_, fun htopic =>
    starsApart_of_no_star htopic pattern⟩
  intro hapart
  obtain ⟨b, hb, hiff⟩ := bmWildcardMatch_agrees fun m hvisits => agrees_of_not_meets (hapart m hvisits)
  exact ⟨b, hb, hiff.trans (globs_iff_accepts hstar)⟩

/-- The states of the loop on `ab*` and `a*`. -/
theorem visits_run {m : Matching} (h : Visits [0x61, 0x62, 0x2a] [0x61, 0x2a] m) :
    m ∈ ([⟨none, 0, 0, 0⟩, ⟨none, 0, 1, 1⟩, ⟨some 1, 1, 1, 2⟩, ⟨some 1, 2, 2, 2⟩,
      ⟨some 1, 3, 3, 2⟩] : List Matching) := by
  induction h with
  | start => decide
  | @next m m' _ hi hround ih =>
    simp only [List.mem_cons, List.not_mem_nil, or_false] at ih
    rcases ih with rfl | rfl | rfl | rfl | rfl
    all_goals
      first
      | (obtain rfl := Option.some.inj (Except.ok.inj hround); decide)
      | exact absurd hi (by decide)

/-- `a*` and the topic `ab*`, whose star is met by no star of the pattern. -/
theorem matching_is_glob_run :
    ∃ b, bmWildcardMatch [0x61, 0x62, 0x2a] [0x61, 0x2a] = .ok b ∧
      (b = true ↔ Globs [0x61, 0x2a] [0x61, 0x62, 0x2a]) := by
  refine (matching_is_glob [0x61, 0x62, 0x2a] [0x61, 0x2a] (by decide)).2.2.1 ?_
  intro m hm
  have hmem := visits_run hm
  simp only [List.mem_cons, List.not_mem_nil, or_false] at hmem
  rcases hmem with rfl | rfl | rfl | rfl | rfl
  all_goals
    unfold Meets
    decide

/-- `*b` does not match the topic `*ab`: the two stars are taken for the same byte. -/
theorem topic_star_not_globbed :
    ¬ ∀ topic pattern : Bytes, star ∈ pattern →
      ∃ b, bmWildcardMatch topic pattern = .ok b ∧ (b = true ↔ Globs pattern topic) := by
  intro h
  obtain ⟨b, hb, hiff⟩ := h [0x2a, 0x61, 0x62] [0x2a, 0x62] (by decide)
  have hfalse : bmWildcardMatch [0x2a, 0x61, 0x62] [0x2a, 0x62] = .ok false := by decide
  have hglob : Globs [0x2a, 0x62] [0x2a, 0x61, 0x62] := .run 2 (fun _ _ h => h) (.take (.lit 0x62) .nil)
  rw [hfalse] at hb
  cases hb
  exact absurd (hiff.mpr hglob) (by decide)

end Bristlemouth.Wildcard
