import Bristlemouth.Parser.Head

/-!
# One step of the reader

`On` is an iterator on an item, with the head it is on. `Next` is what the step behind an item can
lead to: the end of a container whose count ran out, its break, or the next item.
-/

set_option autoImplicit false

namespace Bristlemouth.Parser

open Bytes Config

theorem typeOf_fixed {major info : Nat} (hm : major < 8) (hi : info < 32) :
    isFixedType (typeOf major info) = true ↔ major < 2 ∨ 5 < major := by
  have hall : ∀ m : Fin 8, ∀ i : Fin 32,
      isFixedType (typeOf m.val i.val) = true ↔ m.val < 2 ∨ 5 < m.val := by decide +kernel
  exact hall ⟨major, hm⟩ ⟨info, hi⟩

theorem typeOf_eq {major info k : Nat} (hm : major < 8) (hi : info < 32) (hk : 2 ≤ k) (hk6 : k ≤ 6) :
    typeOf major info = UInt8.ofNat (32 * k) ↔ major = k := by
  have hall : ∀ m : Fin 8, ∀ i : Fin 32, ∀ j : Fin 5,
      typeOf m.val i.val = UInt8.ofNat (32 * (j.val + 2)) ↔ m.val = j.val + 2 := by decide +kernel
  obtain ⟨j, rfl⟩ := Nat.exists_eq_add_of_le' hk
  exact hall ⟨major, hm⟩ ⟨info, hi⟩ ⟨j, by omega⟩

theorem typeOf_valid {major info : Nat} (hm : major < 8) (hi : info ≤ 27 ∨ major < 7) (hlt : info < 32) :
    typeOf major info ≠ invalid := by
  have hall : ∀ m : Fin 8, ∀ i : Fin 32, (i.val ≤ 27 ∨ m.val < 7) →
      typeOf m.val i.val ≠ invalid := by decide +kernel
  exact hall ⟨major, hm⟩ ⟨info, hlt⟩ hi

theorem HeadAt.bounds {tail argument : Bytes} {major info : Nat} (h : HeadAt tail major info argument) :
    major < 8 ∧ info < 32 ∧ (info ≤ 27 ∨ info = 31 ∧ 2 ≤ major ∧ major ≤ 5) ∧ 0 < tail.length := by
  cases h with
  | definite hm hi hlen htail hwide => exact ⟨hm, by omega, .inl hi, by simp [htail]⟩
  | unbounded hm hm5 htail => exact ⟨by omega, by omega, .inr ⟨rfl, hm, hm5⟩, by simp [htail]⟩

/-- An iterator on an item with this head. -/
structure On (v : Value) (major info : Nat) (argument : Bytes) : Prop where
  head : HeadAt (v.buf.drop v.pos) major info argument
  self : v.onHead major info argument = v

/-- What stays with an iterator while it moves: its buffer and where it is in its container. -/
structure Kept (v w : Value) : Prop where
  buf : w.buf = v.buf
  remaining : w.remaining = v.remaining
  isMap : w.flags.containerIsMap = v.flags.containerIsMap
  nextIsMapKey : w.flags.nextIsMapKey = v.flags.nextIsMapKey

namespace On

section
variable {u : Usize} {v : Value} {major info : Nat} {argument : Bytes}

theorem ty (h : On v major info argument) : v.ty = typeOf major info :=
  (congrArg Value.ty h.self).symm

theorem unknownLength (h : On v major info argument) : v.flags.unknownLength = decide (info = 31) :=
  (congrArg (fun v : Value => v.flags.unknownLength) h.self).symm

theorem fixed_iff (h : On v major info argument) : isFixedType v.ty = true ↔ major < 2 ∨ 5 < major := by
  obtain ⟨hm, hi, -⟩ := h.head.bounds
  rw [h.ty, typeOf_fixed hm hi]

theorem ty_iff (h : On v major info argument) {k : Nat} (hk : 2 ≤ k) (hk6 : k ≤ 6) :
    v.ty = UInt8.ofNat (32 * k) ↔ major = k := by
  obtain ⟨hm, hi, -⟩ := h.head.bounds
  rw [h.ty, typeOf_eq hm hi hk hk6]

theorem tag_iff (h : On v major info argument) : v.ty = tag ↔ major = 6 :=
  h.ty_iff (k := 6) (by decide) (by decide)

theorem container_iff (h : On v major info argument) : v.isContainer = true ↔ major = 4 ∨ major = 5 := by
  rw [Value.isContainer, Bool.or_eq_true, decide_eq_true_eq, decide_eq_true_eq]
  exact or_congr (h.ty_iff (k := 4) (by decide) (by decide)) (h.ty_iff (k := 5) (by decide) (by decide))

theorem string_iff (h : On v major info argument) :
    (!v.isTextString && !v.isByteString) = false ↔ major = 2 ∨ major = 3 := by
  have htwo : v.isByteString = true ↔ major = 2 := by
    rw [Value.isByteString, decide_eq_true_eq]
    exact h.ty_iff (k := 2) (by decide) (by decide)
  have hthree : v.isTextString = true ↔ major = 3 := by
    rw [Value.isTextString, decide_eq_true_eq]
    exact h.ty_iff (k := 3) (by decide) (by decide)
  rw [← htwo, ← hthree]
  cases v.isTextString <;> cases v.isByteString <;> simp

theorem valid (h : On v major info argument) : v.ty ≠ invalid := by
  obtain ⟨hm, hi, hform, -⟩ := h.head.bounds
  rw [h.ty]
  exact typeOf_valid hm (by omega) hi

theorem pos_lt (h : On v major info argument) : v.pos < v.buf.length := by
  obtain ⟨-, -, -, hpos⟩ := h.head.bounds
  rw [List.length_drop] at hpos
  omega

end

end On

/-- An iterator at the end of its container, which `unknown` says is behind it by one byte. -/
structure Ended (w v : Value) (unknown : Bool) : Prop where
  remaining : v.remaining = 0
  ty : v.ty = invalid
  unknownLength : v.flags.unknownLength = unknown
  pos : v.pos = w.pos
  buf : v.buf = w.buf

/-- What `preparse_next_value` makes of an iterator that has been moved behind its item. -/
inductive Next (w v : Value) : Prop
  | ended (hty : w.ty ≠ tag) (hr : w.remaining = 1) (hv : Ended w v false)
  | broke (hty : w.ty ≠ tag) (hr : w.remaining = unbounded) (hbyte : w.buf[w.pos]? = some breakByte)
      (hkey : w.flags.containerIsMap = true → w.flags.nextIsMapKey = true) (hv : Ended w v true)
  | item (hr : w.ty ≠ tag → w.remaining ≠ 1) (hon : ∃ major info argument, On v major info argument)
      (hpos : v.pos = w.pos) (hbuf : v.buf = w.buf)
      (hremaining : v.remaining =
        if w.ty = tag ∨ w.remaining = unbounded then w.remaining else w.remaining - 1)
      (hmap : v.flags.containerIsMap = w.flags.containerIsMap)
      (hkey : v.flags.nextIsMapKey = if w.ty = tag then w.flags.nextIsMapKey else !w.flags.nextIsMapKey)

theorem HeadAt.not_break {tail argument : Bytes} {major info : Nat} (h : HeadAt tail major info argument) :
    tail[0]? ≠ some breakByte := by
  have hall : ∀ m : Fin 8, ∀ i : Fin 32, (i.val ≤ 27 ∨ m.val ≤ 5) →
      Cbor.initial m.val i.val ≠ breakByte := by decide +kernel
  cases h with
  | definite hm hi hlen htail hwide =>
    rw [htail, List.getElem?_cons_zero]
    intro heq
    exact hall ⟨major, hm⟩ ⟨info, by omega⟩ (.inl hi) (Option.some_injective _ heq)
  | unbounded hm hm5 htail =>
    rw [htail, List.getElem?_cons_zero]
    intro heq
    exact hall ⟨major, by omega⟩ ⟨31, by omega⟩ (.inr hm5) (Option.some_injective _ heq)

namespace Value

section
variable {u : Usize} {v w : Value} {major info : Nat} {argument : Bytes}

/-- Reading a head leaves the iterator where it is, on an item. -/
theorem preparse_on (hpos : v.pos < 2 ^ 31) (h : preparseValue u v = (w, .ok ())) :
    w.pos = v.pos ∧ Kept v w ∧ ∃ major info argument, On w major info argument := by
  obtain ⟨major, info, argument, hhead, rfl⟩ := (preparse_iff hpos).mp h
  exact ⟨rfl, ⟨rfl, rfl, rfl, rfl⟩, major, info, argument, hhead, rfl⟩

theorem preparse_of_head (hpos : v.pos < 2 ^ 31) (hhead : HeadAt (v.buf.drop v.pos) major info argument) :
    ∃ w, preparseValue u v = (w, .ok ()) :=
  ⟨_, (preparse_iff hpos).mpr ⟨major, info, argument, hhead, rfl⟩⟩

theorem nodecrement_cases (hpos : w.pos < 2 ^ 31)
    (h : w.preparseNextValueNodecrement u = (v, .ok ())) :
    (w.remaining = unbounded ∧ w.buf[w.pos]? = some breakByte ∧
      (w.flags.containerIsMap = true → w.flags.nextIsMapKey = false) ∧ w.ty ≠ tag ∧ Ended w v true) ∨
    (v.pos = w.pos ∧ Kept w v ∧ ∃ major info argument, On v major info argument) := by
  unfold preparseNextValueNodecrement at h
  by_cases hbreak : w.remaining = unbounded ∧ w.buf[w.pos]? = some breakByte
  · rw [if_pos hbreak] at h
    by_cases hstop : w.flags.containerIsMap ∧ w.flags.nextIsMapKey ∨ w.ty = tag
    · rw [if_pos hstop] at h
      cases h
    · rw [if_neg hstop] at h
      cases h
      obtain ⟨hkey, hty⟩ := not_or.mp hstop
      refine .inl ⟨hbreak.1, hbreak.2, ?_, hty, rfl, rfl, rfl, rfl, rfl⟩
      intro hmap
      rw [Bool.eq_false_iff]
      intro hnext
      exact hkey ⟨hmap, hnext⟩
  · rw [if_neg hbreak] at h
    exact .inr (preparse_on hpos h)

theorem eq_add_one_of_sub {a b : UInt32} (h : a - 1 = b) : a = b + 1 := by
  rw [← h]
  exact (UInt32.sub_add_cancel a 1).symm

theorem unbounded_add_one : unbounded + 1 = 0 := by decide

theorem unbounded_ne_one : unbounded ≠ 1 := by decide

/-- The iterator once the item behind it is counted. -/
def counted (w : Value) : Value :=
  { w with
    remaining := if w.remaining = unbounded then unbounded else w.remaining - 1
    flags := { w.flags with nextIsMapKey := !w.flags.nextIsMapKey } }

theorem preparseNextValue_eq (hty : w.ty ≠ tag) (hr : w.remaining ≠ 0) :
    w.preparseNextValue u =
      if w.remaining = 1 then
        ({ w with remaining := 0, ty := invalid, flags := { w.flags with unknownLength := false } }, .ok ())
      else w.counted.preparseNextValueNodecrement u := by
  have hzero : w.remaining - 1 = 0 ↔ w.remaining = 1 := by
    constructor
    · intro h
      exact eq_add_one_of_sub h
    · intro h
      rw [h, UInt32.sub_self]
  rw [preparseNextValue, if_neg hty]
  by_cases hopen : w.remaining = unbounded
  · have hone : ¬ w.remaining = 1 := by
      rw [hopen]
      exact unbounded_ne_one
    have hsame : (if w.remaining = unbounded then unbounded else w.remaining - 1) = w.remaining := by
      rw [if_pos hopen, hopen]
    rw [if_pos hopen, if_neg hr, if_neg hone, counted, hsame]
  · rw [if_neg hopen]
    by_cases hone : w.remaining = 1
    · have hdone : w.remaining - 1 = 0 := hzero.mpr hone
      rw [if_pos hone, hdone]
      exact if_pos rfl
    · rw [if_neg hone, counted, if_neg hopen]
      exact if_neg (mt hzero.mp hone)

theorem next_sound (hpos : w.pos < 2 ^ 31) (hr : w.remaining ≠ 0)
    (h : w.preparseNextValue u = (v, .ok ())) : Next w v := by
  by_cases hty : w.ty = tag
  · rw [preparseNextValue, if_pos hty] at h
    rcases nodecrement_cases hpos h with ⟨-, -, -, htag, -⟩ | ⟨hp, hkept, hon⟩
    · exact absurd hty htag
    · refine .item (fun hne => absurd hty hne) hon hp hkept.buf ?_ hkept.isMap ?_
      · rw [if_pos (.inl hty)]
        exact hkept.remaining
      · rw [if_pos hty]
        exact hkept.nextIsMapKey
  · rw [preparseNextValue_eq hty hr] at h
    by_cases hone : w.remaining = 1
    · rw [if_pos hone] at h
      cases h
      exact .ended hty hone ⟨rfl, rfl, rfl, rfl, rfl⟩
    · rw [if_neg hone] at h
      have hopen : w.counted.remaining = unbounded → w.remaining = unbounded := by
        intro heq
        by_contra hne
        simp only [counted, if_neg hne] at heq
        exact hr ((eq_add_one_of_sub heq).trans unbounded_add_one)
      rcases nodecrement_cases (show w.counted.pos < 2 ^ 31 from hpos) h with
        ⟨hopened, hbyte, hkey, -, hended⟩ | ⟨hp, hkept, hon⟩
      · refine .broke hty (hopen hopened) hbyte ?_ ⟨hended.remaining, hended.ty, hended.unknownLength,
          hended.pos, hended.buf⟩
        intro hmap
        have hfalse : (!w.flags.nextIsMapKey) = false := hkey hmap
        simpa using hfalse
      · refine .item (fun _ => hone) hon hp hkept.buf ?_ hkept.isMap ?_
        · rw [hkept.remaining]
          simp only [counted, hty, false_or]
          by_cases hun : w.remaining = unbounded
          · rw [if_pos hun, if_pos hun, hun]
          · rw [if_neg hun, if_neg hun]
        · rw [if_neg hty]
          exact hkept.nextIsMapKey

/-- Behind the last item of a counted container. -/
theorem next_ended (hty : w.ty ≠ tag) (hr : w.remaining = 1) :
    ∃ v, w.preparseNextValue u = (v, .ok ()) := by
  rw [preparseNextValue_eq hty (by rw [hr]; decide), if_pos hr]
  exact ⟨_, rfl⟩

theorem next_broke (hty : w.ty ≠ tag) (hr : w.remaining = unbounded)
    (hbyte : w.buf[w.pos]? = some breakByte)
    (hkey : w.flags.containerIsMap = true → w.flags.nextIsMapKey = true) :
    ∃ v, w.preparseNextValue u = (v, .ok ()) := by
  have hopen : w.counted.remaining = unbounded ∧ w.counted.buf[w.counted.pos]? = some breakByte := by
    refine ⟨?_, hbyte⟩
    rw [counted, hr]
    rfl
  have hstop : ¬ (w.counted.flags.containerIsMap ∧ w.counted.flags.nextIsMapKey ∨ w.counted.ty = tag) := by
    rintro (⟨hmap, hnext⟩ | htag)
    · have htrue := hkey hmap
      simp [counted, htrue] at hnext
    · exact hty htag
  rw [preparseNextValue_eq hty (by rw [hr]; decide), if_neg (by rw [hr]; decide),
    preparseNextValueNodecrement, if_pos hopen, if_neg hstop]
  exact ⟨_, rfl⟩

theorem nodecrement_item (hpos : w.pos < 2 ^ 31)
    (hhead : HeadAt (w.buf.drop w.pos) major info argument) :
    ∃ v, w.preparseNextValueNodecrement u = (v, .ok ()) := by
  have hbreak : ¬ (w.remaining = unbounded ∧ w.buf[w.pos]? = some breakByte) := by
    rintro ⟨-, hbyte⟩
    apply hhead.not_break
    simpa using hbyte
  rw [preparseNextValueNodecrement, if_neg hbreak]
  exact preparse_of_head hpos hhead

theorem next_item (hpos : w.pos < 2 ^ 31) (hr : w.remaining ≠ 0) (hone : w.ty ≠ tag → w.remaining ≠ 1)
    (hhead : HeadAt (w.buf.drop w.pos) major info argument) :
    ∃ v, w.preparseNextValue u = (v, .ok ()) := by
  by_cases hty : w.ty = tag
  · rw [preparseNextValue, if_pos hty]
    exact nodecrement_item hpos hhead
  · rw [preparseNextValue_eq hty hr, if_neg (hone hty)]
    exact nodecrement_item (w := w.counted) hpos hhead

theorem extract_on (h : On v major info argument) (hi : info ≤ 27) (hpos : v.pos < 2 ^ 31) :
    ∃ x, v.extract u = .ok x ∧ (¬ (major = 7 ∧ info = 20) → x.toNat = argumentOf info argument) := by
  have hself := h.self
  cases h.head with
  | unbounded hm hm5 htail => omega
  | @definite _ _ rest hm hi hlen htail hwide =>
    have hlong := length_argument hi hlen
    have hbound := beNat_lt argument
    have hlarge : v.flags.integerTooLarge = decide (info = 26 ∨ info = 27) :=
      (congrArg (fun v : Value => v.flags.integerTooLarge) hself).symm
    have hextra : v.extra = extraOf major info argument := (congrArg Value.extra hself).symm
    by_cases hwhole : info = 26 ∨ info = 27
    · have hwidth : (if v.flags.integerIs64Bit = true then 8 else 4) = argument.length := by
        have hsixty : v.flags.integerIs64Bit = decide (info = 27) :=
          (congrArg (fun v : Value => v.flags.integerIs64Bit) hself).symm
        rw [hsixty, hlen]
        rcases hwhole with rfl | rfl
        · rfl
        · rfl
      have hbytes : v.bytesAt u 1 = .ok (argument ++ rest) := by
        rw [bytesAt_one hpos, drop_succ htail]
      have hfirst : firstBytes (argument ++ rest) argument.length = .ok argument := by
        rw [firstBytes, if_pos (by rw [List.length_append]; omega), List.take_left]
      refine ⟨readBe argument, ?_, ?_⟩
      · rw [extract, hlarge, decide_eq_true hwhole]
        simp only [Bool.not_true, Bool.false_eq_true, if_false, hwidth, hbytes, bind, Except.bind, hfirst]
        rfl
      · intro _
        have hpow : 256 ^ argument.length ≤ 256 ^ 8 := Nat.pow_le_pow_right (by decide) hlong
        rw [argumentOf, if_neg (by omega), readBe, UInt64.toNat_ofNat']
        exact Nat.mod_eq_of_lt (by omega)
    · refine ⟨v.extra.toUInt64, ?_, ?_⟩
      · rw [extract, hlarge, decide_eq_false hwhole]
        rfl
      · intro hfalse
        have h31 : ¬ (info < 24 ∨ info = 31) ↔ ¬ info < 24 := by omega
        rw [UInt16.toNat_toUInt64, hextra, extraOf, if_neg hfalse, argumentOf]
        by_cases hshort : info < 24
        · rw [if_pos (.inl hshort), if_pos hshort, UInt16.toNat_ofNat']
          exact Nat.mod_eq_of_lt (by omega)
        · rw [if_neg (h31.mpr hshort), if_neg hshort, if_pos (by omega), UInt16.toNat_ofNat']
          have hcases : info = 24 ∨ info = 25 := by omega
          rcases hcases with rfl | rfl
          · have hone : argument.length = 1 := hlen
            rw [hone] at hbound
            exact Nat.mod_eq_of_lt (by omega)
          · have htwo : argument.length = 2 := hlen
            rw [htwo] at hbound
            exact Nat.mod_eq_of_lt (by omega)

/-- A definite head is stepped over whole, and its argument read. -/
theorem extractNumberAndAdvance_on (h : On v major info argument) (hi : info ≤ 27)
    (hpos : v.pos < 2 ^ 31) :
    ∃ x, v.extractNumberAndAdvance u = .ok ({ v with pos := v.pos + (1 + argument.length) }, x) ∧
      (major < 7 → x.toNat = argumentOf info argument) := by
  obtain ⟨x, hx, harg⟩ := extract_on (u := u) h hi hpos
  refine ⟨x, ?_, fun h7 => harg (by omega)⟩
  cases h.head with
  | unbounded hm hm5 htail => omega
  | definite hm hi hlen htail hwide =>
    have hlong := length_argument hi hlen
    have hmax := u.le_max
    simp only [extractNumberAndAdvance, hx, bind, Except.bind, getElem?_of_drop htail,
      initial_info (show info < 32 by omega), ← hlen, addUsize]
    rw [if_pos (by omega), Nat.add_comm argument.length 1]
    rfl

end

end Value

end Bristlemouth.Parser
