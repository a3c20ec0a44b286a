import Bristlemouth.Lib.CborItem
import Bristlemouth.Parser.Value

/-!
# What the reader makes of a head

`preparse_value` succeeds on the heads of the grammar and on no others: `preparse_definite` and
`preparse_unbounded` say what it makes of them, `preparse_cases` that there is nothing else.
-/

set_option autoImplicit false

namespace Bristlemouth.Parser

open Bytes Config

theorem exists_initial (d : UInt8) :
    ∃ major info, major < 8 ∧ info < 32 ∧ d = Cbor.initial major info := by
  have hlt := d.toNat_lt
  refine ⟨d.toNat / 32, d.toNat % 32, by omega, by omega, ?_⟩
  rw [Cbor.initial, show 32 * (d.toNat / 32) + d.toNat % 32 = d.toNat by omega, UInt8.ofNat_toNat]

theorem initial_type {major info : Nat} (hm : major < 8) (hi : info < 32) :
    Cbor.initial major info &&& 0xe0 = UInt8.ofNat (32 * major) := by
  have hall : ∀ m : Fin 8, ∀ i : Fin 32,
      Cbor.initial m.val i.val &&& 0xe0 = UInt8.ofNat (32 * m.val) := by decide +kernel
  exact hall ⟨major, hm⟩ ⟨info, hi⟩

theorem type_shift {major : Nat} (hm : major < 8) : UInt8.ofNat (32 * major) >>> 5 = UInt8.ofNat major := by
  have hall : ∀ m : Fin 8, UInt8.ofNat (32 * m.val) >>> 5 = UInt8.ofNat m.val := by decide
  exact hall ⟨major, hm⟩

/-- `ty`, on an item of a major type. -/
def typeOf (major info : Nat) : UInt8 :=
  if major ≤ 1 then integer
  else if major < 7 then UInt8.ofNat (32 * major)
  else if info = 20 then boolean
  else if info = 21 ∨ info = 22 ∨ info = 23 ∨ info = 25 ∨ info = 26 ∨ info = 27 then
    Cbor.initial major info
  else simple

/-- `extra`, with the argument's bytes after the initial one. -/
def extraOf (major info : Nat) (argument : Bytes) : UInt16 :=
  if major = 7 ∧ info = 20 then 0
  else if info < 24 ∨ info = 31 then UInt16.ofNat info
  else if info ≤ 25 then UInt16.ofNat (beNat argument)
  else 0

namespace Value

/-- The iterator on an item with this head, where `v` stands. -/
def onHead (v : Value) (major info : Nat) (argument : Bytes) : Value :=
  { v with
    ty := typeOf major info
    extra := extraOf major info argument
    flags :=
      { integerIs64Bit := info = 27
        integerTooLarge := info = 26 ∨ info = 27
        negativeInteger := major = 1
        iteratingStringChunks := false
        unknownLength := info = 31
        containerIsMap := v.flags.containerIsMap
        nextIsMapKey := v.flags.nextIsMapKey } }

section
variable {u : Usize} {v w : Value} {major info : Nat} {argument rest : Bytes}

theorem getElem?_of_drop {buf : Bytes} {pos : Nat} {d : UInt8} {rest : Bytes}
    (h : buf.drop pos = d :: rest) : buf[pos]? = some d := by
  have hget := congrArg (fun l : Bytes => l[0]?) h
  simpa using hget

/-- The iterator once the initial byte is known. -/
def onInitial (v : Value) (major info : Nat) : Value :=
  { v with
    ty := UInt8.ofNat (32 * major)
    extra := UInt16.ofNat info
    flags := { Flags.none with
      containerIsMap := v.flags.containerIsMap
      nextIsMapKey := v.flags.nextIsMapKey } }

theorem preparse_eq (hm : major < 8) (hi : info ≤ 27)
    (hd : v.buf[v.pos]? = some (Cbor.initial major info)) :
    preparseValue u v = ((v.onInitial major info).preparseArgument u (UInt8.ofNat info)).andThen
      fun v => v.preparseType (Cbor.initial major info) := by
  obtain ⟨hnat, -, h27, -⟩ := info_tests hi
  have hextra : (UInt8.ofNat info).toUInt16 = UInt16.ofNat info := by
    rw [← UInt16.toNat_inj, UInt8.toNat_toUInt16, hnat, UInt16.toNat_ofNat']
    omega
  simp only [preparseValue, hd, initial_type hm (by omega : info < 32),
    initial_info (by omega : info < 32), if_neg h27, hextra]
  rfl

theorem bytesAt_one (hpos : v.pos < 2 ^ 31) : v.bytesAt u 1 = .ok (v.buf.drop (v.pos + 1)) := by
  have hmax := u.le_max
  rw [bytesAt, addUsize, if_pos (by omega)]
  rfl

theorem drop_succ {buf : Bytes} {pos : Nat} {d : UInt8} {tail : Bytes} (h : buf.drop pos = d :: tail) :
    buf.drop (pos + 1) = tail := by
  rw [← List.drop_drop, h]
  rfl

theorem needed_short (h : info < 24) : needed (UInt8.ofNat info) = 0 := by
  obtain ⟨-, -, -, h24⟩ := info_tests (show info ≤ 27 by omega)
  exact if_pos (h24.mpr h)

theorem needed_long {k : Nat} (hk : k ≤ 3) : needed (UInt8.ofNat (24 + k)) = 2 ^ k := by
  obtain ⟨-, -, -, h24⟩ := info_tests (show 24 + k ≤ 27 by omega)
  rw [needed, if_neg fun h => absurd (h24.mp h) (by omega), argLen_ofNat hk]

theorem canRead_of_drop {n : Nat} (hlen : argument.length = n)
    (hdrop : v.buf.drop (v.pos + 1) = argument ++ rest) (hn : 0 < n) : v.canRead (n + 1) = true := by
  have htotal := congrArg List.length hdrop
  rw [List.length_drop, List.length_append, hlen] at htotal
  rw [canRead, decide_eq_true_eq]
  omega

theorem preparseArgument_eq (hpos : v.pos < 2 ^ 31) (hi : info ≤ 27)
    (hlen : argument.length = needed (UInt8.ofNat info))
    (hdrop : v.buf.drop (v.pos + 1) = argument ++ rest) :
    (v.onInitial major info).preparseArgument u (UInt8.ofNat info) = ({ v.onInitial major info with
      extra := if info < 24 then UInt16.ofNat info
        else if info ≤ 25 then UInt16.ofNat (beNat argument) else 0
      flags := { Flags.none with
        integerIs64Bit := info = 27
        integerTooLarge := info = 26 ∨ info = 27
        containerIsMap := v.flags.containerIsMap
        nextIsMapKey := v.flags.nextIsMapKey } }, .ok ()) := by
  by_cases hshort : info < 24
  · have h27 : ¬ info = 27 := by omega
    have h26 : ¬ info = 26 := by omega
    rw [preparseArgument, if_pos (needed_short hshort), if_pos hshort]
    simp [h26, h27, onInitial, Flags.none]
  · obtain ⟨k, rfl⟩ := Nat.exists_eq_add_of_le (not_lt.mp hshort)
    have hk : k ≤ 3 := by omega
    have hn : 0 < needed (UInt8.ofNat (24 + k)) := by
      rw [needed_long hk]
      exact Nat.two_pow_pos k
    have hread : (v.onInitial major (24 + k)).canRead (needed (UInt8.ofNat (24 + k)) + 1) = true :=
      canRead_of_drop hlen hdrop hn
    have hbytes : (v.onInitial major (24 + k)).bytesAt u 1 = .ok (argument ++ rest) := by
      rw [bytesAt_one (by exact hpos)]
      exact congrArg _ hdrop
    have hfirst : firstBytes (argument ++ rest) (needed (UInt8.ofNat (24 + k))) = .ok argument := by
      rw [firstBytes, if_pos (by rw [List.length_append]; omega), ← hlen, List.take_left]
    rw [preparseArgument, if_neg (by omega), hread, hbytes, if_neg hshort]
    by_cases hsmall : k ≤ 1
    · have hle : needed (UInt8.ofNat (24 + k)) ≤ 2 := by
        rw [needed_long hk]
        exact Nat.pow_le_pow_right (by decide) hsmall
      have h27 : ¬ 24 + k = 27 := by omega
      have h26 : ¬ 24 + k = 26 := by omega
      have h25 : 24 + k ≤ 25 := by omega
      simp only [Bool.not_true, Bool.false_eq_true, if_false, if_pos hle, bind, Except.bind, hfirst,
        h25, if_true, h26, h27, or_self, decide_false]
      rfl
    · have hcases : k = 2 ∨ k = 3 := by omega
      rcases hcases with rfl | rfl
      · rfl
      · rfl

theorem preparseType_eq (hm : major < 8) (hi : info ≤ 27) {x : Value}
    (hx : x.ty = UInt8.ofNat (32 * major))
    (hnarrow : major = 7 → info = 24 → ¬ x.extra < 32) :
    x.preparseType (Cbor.initial major info) = ({ x with
      ty := typeOf major info
      extra := if major = 7 ∧ info = 20 then 0 else x.extra
      flags := { x.flags with
        negativeInteger := x.flags.negativeInteger || major = 1
        integerTooLarge := x.flags.integerTooLarge || (major = 7 ∧ (info = 26 ∨ info = 27)) } },
      .ok ()) := by
  have hshift : x.ty >>> 5 = UInt8.ofNat major := by rw [hx, type_shift hm]
  have hinfo : ∀ k ≤ 27, (UInt8.ofNat info = UInt8.ofNat k ↔ info = k) := by
    intro k hk
    obtain ⟨hnat, -⟩ := info_tests hi
    obtain ⟨hknat, -⟩ := info_tests hk
    rw [← UInt8.toNat_inj, hnat, hknat]
  have h20 := hinfo 20 (by omega)
  have h21 := hinfo 21 (by omega)
  have h22 := hinfo 22 (by omega)
  have h23 := hinfo 23 (by omega)
  have h24 := hinfo 24 (by omega)
  have h25 := hinfo 25 (by omega)
  have h26 := hinfo 26 (by omega)
  have h27 := hinfo 27 (by omega)
  simp only [UInt8.reduceOfNat] at h20 h21 h22 h23 h24 h25 h26 h27
  rw [preparseType, initial_info (by omega : info < 32), hshift]
  simp only [h20, h21, h22, h23, h24, h25, h26, h27]
  by_cases h1 : major = 1
  · subst h1
    simp [typeOf]
  · have hne1 : ¬ UInt8.ofNat major = 1 := by
      intro heq
      have hnat := congrArg UInt8.toNat heq
      change major % 256 = 1 at hnat
      omega
    rw [if_neg hne1]
    by_cases h7 : major = 7
    · subst h7
      rw [if_pos (show UInt8.ofNat 7 = 7 from rfl)]
      by_cases hi20 : info = 20
      · subst hi20
        simp [typeOf]
      · rw [if_neg hi20]
        by_cases hfloat : info = 26 ∨ info = 27
        · rw [if_pos hfloat]
          rcases hfloat with rfl | rfl
          · simp [typeOf]
          · simp [typeOf]
        · rw [if_neg hfloat]
          by_cases hone : info = 21 ∨ info = 22 ∨ info = 23 ∨ info = 25
          · rw [if_pos hone]
            rcases hone with rfl | rfl | rfl | rfl
            · simp [typeOf]
            · simp [typeOf]
            · simp [typeOf]
            · simp [typeOf]
          · rw [if_neg hone, if_neg fun h => hnarrow rfl h.1 h.2]
            have hsimple : typeOf 7 info = x.ty := by
              rw [hx, typeOf, if_neg (by omega), if_neg (by omega), if_neg hi20, if_neg (by omega)]
              rfl
            rw [hsimple]
            simp [hi20, hfloat]
    · have hne7 : ¬ UInt8.ofNat major = 7 := by
        intro heq
        have hnat := congrArg UInt8.toNat heq
        change major % 256 = 7 at hnat
        omega
      have htype : typeOf major info = x.ty := by
        rw [hx, typeOf]
        by_cases h0 : major ≤ 1
        · rw [if_pos h0, show major = 0 by omega]
          rfl
        · rw [if_neg h0, if_pos (by omega)]
      rw [if_neg hne7, htype]
      simp [h1, h7]

theorem preparseType_narrow {x : Value} (hx : x.ty = simple) (hextra : x.extra < 32) :
    x.preparseType (Cbor.initial 7 24) = ({ x with ty := invalid }, fail .illegalSimpleType) := by
  have h7 : simple >>> 5 = 7 := by decide
  have hinfo : Cbor.initial 7 24 &&& 0x1f = 24 := by decide
  simp only [preparseType, hx, h7, hinfo, hextra]
  simp

theorem isFixedType_type (hm : major < 8) :
    isFixedType (UInt8.ofNat (32 * major)) = true ↔ major < 2 ∨ 5 < major := by
  have hall : ∀ m : Fin 8, isFixedType (UInt8.ofNat (32 * m.val)) = true ↔ m.val < 2 ∨ 5 < m.val := by
    decide
  exact hall ⟨major, hm⟩

theorem length_argument (hi : info ≤ 27) (hlen : argument.length = needed (UInt8.ofNat info)) :
    argument.length ≤ 8 := by
  rw [hlen]
  by_cases hshort : info < 24
  · rw [needed_short hshort]
    omega
  · obtain ⟨k, rfl⟩ := Nat.exists_eq_add_of_le (not_lt.mp hshort)
    have hk : k ≤ 3 := by omega
    rw [needed_long hk]
    exact Nat.pow_le_pow_right (by decide) hk

/-- A definite head. -/
theorem preparse_definite (hm : major < 8) (hi : info ≤ 27) (hpos : v.pos < 2 ^ 31)
    (hlen : argument.length = needed (UInt8.ofNat info))
    (hdrop : v.buf.drop v.pos = Cbor.initial major info :: (argument ++ rest))
    (hwide : major = 7 → info = 24 → 32 ≤ beNat argument) :
    preparseValue u v = (v.onHead major info argument, .ok ()) := by
  rw [preparse_eq hm hi (getElem?_of_drop hdrop), preparseArgument_eq hpos hi hlen (drop_succ hdrop)]
  have h31 : ¬ info = 31 := by omega
  simp only [Changed.andThen]
  rw [preparseType_eq hm hi (by rfl)]
  · have hlarge : (decide (info = 26 ∨ info = 27) || decide (major = 7 ∧ (info = 26 ∨ info = 27))) =
        decide (info = 26 ∨ info = 27) := by
      by_cases h : info = 26 ∨ info = 27
      · simp [h]
      · simp [h]
    simp only [onHead, onInitial, Flags.none, extraOf, h31, or_false, Bool.false_or, decide_false, hlarge]
  · intro h7 h24
    subst h24
    have hone : argument.length = 1 := hlen
    have hbound := beNat_lt argument
    rw [hone] at hbound
    have hle := hwide h7 rfl
    change ¬ UInt16.ofNat (beNat argument) < 32
    rw [UInt16.lt_iff_toNat_lt, UInt16.toNat_ofNat']
    change ¬ beNat argument % 2 ^ 16 < 32
    omega

/-- The head of a string, an array or a map of indefinite length. -/
theorem preparse_unbounded (hm : 2 ≤ major) (hm5 : major ≤ 5)
    (hdrop : v.buf.drop v.pos = Cbor.initial major 31 :: rest) :
    preparseValue u v = (v.onHead major 31 [], .ok ()) := by
  have hcases : major = 2 ∨ major = 3 ∨ major = 4 ∨ major = 5 := by omega
  simp only [preparseValue, getElem?_of_drop hdrop]
  rcases hcases with rfl | rfl | rfl | rfl
  · rfl
  · rfl
  · rfl
  · rfl

/-- There is a head of the grammar wherever a head is read. -/
theorem preparse_cases (hpos : v.pos < 2 ^ 31) (h : preparseValue u v = (w, .ok ())) :
    (∃ major info argument rest, major < 8 ∧ info ≤ 27 ∧ argument.length = needed (UInt8.ofNat info) ∧
      v.buf.drop v.pos = Cbor.initial major info :: (argument ++ rest) ∧
      (major = 7 → info = 24 → 32 ≤ beNat argument) ∧ w = v.onHead major info argument) ∨
    ∃ major rest, 2 ≤ major ∧ major ≤ 5 ∧ v.buf.drop v.pos = Cbor.initial major 31 :: rest ∧
      w = v.onHead major 31 [] := by
  cases hd : v.buf[v.pos]? with
  | none =>
    simp only [preparseValue, hd] at h
    cases h
  | some d =>
    obtain ⟨hlt, hget⟩ := List.getElem?_eq_some_iff.mp hd
    have hdrop : v.buf.drop v.pos = d :: v.buf.drop (v.pos + 1) := by
      rw [List.drop_eq_getElem_cons hlt, hget]
    obtain ⟨major, info, hm, hi, rfl⟩ := exists_initial d
    by_cases h27 : info ≤ 27
    · left
      by_cases hread : v.pos + 1 + needed (UInt8.ofNat info) ≤ v.buf.length
      · have hsplit := List.take_append_drop (needed (UInt8.ofNat info)) (v.buf.drop (v.pos + 1))
        have hlen : ((v.buf.drop (v.pos + 1)).take (needed (UInt8.ofNat info))).length =
            needed (UInt8.ofNat info) := by
          rw [List.length_take, List.length_drop]
          omega
        by_cases hwide : major = 7 → info = 24 → 32 ≤ beNat ((v.buf.drop (v.pos + 1)).take
            (needed (UInt8.ofNat info)))
        · have hdef := preparse_definite (u := u) hm h27 hpos hlen (by rw [hdrop, hsplit]) hwide
          refine ⟨major, info, _, _, hm, h27, hlen, by rw [hdrop, hsplit], hwide, ?_⟩
          exact congrArg Prod.fst (h.symm.trans hdef)
        · -- a two-byte simple value below 32
          obtain ⟨h7, hnext⟩ := Classical.not_imp.mp hwide
          obtain ⟨h24, hsmall⟩ := Classical.not_imp.mp hnext
          subst h7
          subst h24
          rw [preparse_eq hm h27 hd, preparseArgument_eq hpos h27 hlen hsplit.symm] at h
          have hextra : UInt16.ofNat (beNat ((v.buf.drop (v.pos + 1)).take
              (needed (UInt8.ofNat 24)))) < 32 := by
            rw [UInt16.lt_iff_toNat_lt, UInt16.toNat_ofNat']
            change _ % 2 ^ 16 < 32
            omega
          rw [Changed.andThen, preparseType_narrow rfl (by exact hextra)] at h
          cases h
      · -- the argument is cut off
        have hshort : ¬ needed (UInt8.ofNat info) = 0 := by omega
        have hread : (v.onInitial major info).canRead (needed (UInt8.ofNat info) + 1) = false := by
          rw [canRead, decide_eq_false_iff_not]
          change ¬ needed (UInt8.ofNat info) + 1 ≤ v.buf.length - v.pos
          omega
        rw [preparse_eq hm h27 hd, preparseArgument, if_neg hshort, hread] at h
        cases h
    · right
      have hlow : (27 : UInt8) < UInt8.ofNat info := by
        rw [UInt8.lt_iff_toNat_lt, UInt8.toNat_ofNat']
        change 27 < info % 256
        omega
      have hread := h
      simp only [preparseValue, hd, initial_type hm hi, initial_info hi, if_pos hlow] at hread
      by_cases h31 : info = 31
      · subst h31
        rw [if_neg (by decide)] at hread
        by_cases hfixed : isFixedType (UInt8.ofNat (32 * major)) = true
        · rw [hfixed, if_neg (by decide)] at hread
          cases hread
        · have hbounds := mt (isFixedType_type hm).mpr hfixed
          refine ⟨major, _, by omega, by omega, hdrop, ?_⟩
          have hdef := preparse_unbounded (u := u) (v := v) (by omega) (by omega) hdrop
          exact congrArg Prod.fst (h.symm.trans hdef)
      · have hne : UInt8.ofNat info ≠ 31 := by
          intro heq
          have hnat := congrArg UInt8.toNat heq
          change info % 256 = 31 at hnat
          omega
        rw [if_pos hne] at hread
        cases hread

end

end Value

/-- The head that `tail` starts with, as the reader takes it apart. -/
inductive HeadAt (tail : Bytes) (major : Nat) : Nat → Bytes → Prop
  | definite {info : Nat} {argument rest : Bytes} (hm : major < 8) (hi : info ≤ 27)
      (hlen : argument.length = needed (UInt8.ofNat info))
      (htail : tail = Cbor.initial major info :: (argument ++ rest))
      (hwide : major = 7 → info = 24 → 32 ≤ beNat argument) : HeadAt tail major info argument
  | unbounded {rest : Bytes} (hm : 2 ≤ major) (hm5 : major ≤ 5)
      (htail : tail = Cbor.initial major 31 :: rest) : HeadAt tail major 31 []

namespace Value

theorem preparse_iff {u : Usize} {v w : Value} (hpos : v.pos < 2 ^ 31) :
    preparseValue u v = (w, .ok ()) ↔ ∃ major info argument,
      HeadAt (v.buf.drop v.pos) major info argument ∧ w = v.onHead major info argument := by
  constructor
  · intro h
    rcases preparse_cases hpos h with
      ⟨major, info, argument, rest, hm, hi, hlen, hdrop, hwide, rfl⟩ | ⟨major, rest, hm, hm5, hdrop, rfl⟩
    · exact ⟨major, info, argument, .definite hm hi hlen hdrop hwide, rfl⟩
    · exact ⟨major, 31, [], .unbounded hm hm5 hdrop, rfl⟩
  · rintro ⟨major, info, argument, hhead, rfl⟩
    cases hhead with
    | definite hm hi hlen htail hwide => exact preparse_definite hm hi hpos hlen htail hwide
    | unbounded hm hm5 htail => exact preparse_unbounded hm hm5 htail

end Value

/-! ### Heads of the grammar -/

/-- The argument of a definite head. -/
def argumentOf (info : Nat) (argument : Bytes) : Nat := if info < 24 then info else beNat argument

theorem isHead_of_argument (major : Nat) {info : Nat} {argument : Bytes} (hi : info ≤ 27)
    (hlen : argument.length = needed (UInt8.ofNat info)) :
    Cbor.IsHead major (argumentOf info argument) (Cbor.initial major info :: argument) := by
  by_cases hshort : info < 24
  · rw [Value.needed_short hshort, List.length_eq_zero_iff] at hlen
    subst hlen
    rw [argumentOf, if_pos hshort]
    exact .short hshort
  · obtain ⟨k, rfl⟩ := Nat.exists_eq_add_of_le (not_lt.mp hshort)
    have hk : k ≤ 3 := by omega
    rw [Value.needed_long hk] at hlen
    rw [argumentOf, if_neg hshort]
    have hbytes := beBytes_beNat argument
    have hbound := beNat_lt argument
    rw [hlen] at hbytes hbound
    have hhead := @Cbor.IsHead.long major _ k hk hbound
    rwa [hbytes] at hhead

theorem argument_of_isHead {major arg : Nat} {h : Bytes} (hh : Cbor.IsHead major arg h) :
    ∃ info argument, info ≤ 27 ∧ argument.length = needed (UInt8.ofNat info) ∧
      h = Cbor.initial major info :: argument ∧ argumentOf info argument = arg := by
  cases hh with
  | short hlt =>
    exact ⟨arg, [], by omega, (Value.needed_short hlt).symm, rfl, if_pos hlt⟩
  | long k hk hlt =>
    refine ⟨24 + k, beBytes (2 ^ k) arg, by omega, ?_, rfl, ?_⟩
    · rw [Value.needed_long hk, length_beBytes]
    · rw [argumentOf, if_neg (by omega), beNat_beBytes, Nat.mod_eq_of_lt hlt]

/-- Every item of the grammar starts with a head that can be read. -/
theorem headAt_of_item {d : Nat} {b : Bytes} (h : Cbor.Item d b) (rest : Bytes) :
    ∃ major info argument, HeadAt (b ++ rest) major info argument := by
  cases h with
  | integer hm hh =>
    obtain ⟨info, argument, hi, hlen, rfl, -⟩ := argument_of_isHead hh
    exact ⟨_, info, argument, .definite (by omega) hi hlen rfl (by omega)⟩
  | simple hh hwide =>
    obtain ⟨info, argument, hi, hlen, rfl, harg⟩ := argument_of_isHead hh
    refine ⟨_, info, argument, .definite (by omega) hi hlen rfl ?_⟩
    intro _ h24
    subst h24
    have hone : argument.length = 1 := hlen
    rw [← harg] at hwide
    exact hwide (congrArg (· + 1) hone)
  | string hm hh =>
    obtain ⟨info, argument, hi, hlen, rfl, -⟩ := argument_of_isHead hh
    refine ⟨_, info, argument, .definite ?_ hi hlen (List.append_assoc ..) ?_⟩
    · omega
    · omega
  | chunked hm hchunks => exact ⟨_, 31, [], .unbounded (by omega) (by omega) rfl⟩
  | container hm hh hlen hitems =>
    obtain ⟨info, argument, hi, hlength, rfl, -⟩ := argument_of_isHead hh
    refine ⟨_, info, argument, .definite ?_ hi hlength (List.append_assoc ..) ?_⟩
    · omega
    · omega
  | unbounded hm hlen hitems => exact ⟨_, 31, [], .unbounded (by omega) (by omega) rfl⟩
  | tagged hh hb =>
    obtain ⟨info, argument, hi, hlen, rfl, -⟩ := argument_of_isHead hh
    refine ⟨_, info, argument, .definite ?_ hi hlen (List.append_assoc ..) ?_⟩
    · omega
    · omega

end Bristlemouth.Parser
