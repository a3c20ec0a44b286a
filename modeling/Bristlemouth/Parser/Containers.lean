import Bristlemouth.Parser.Grammar
import Mathlib.Algebra.BigOperators.Group.List.Basic

/-!
# Containers

What is between the head of a container and its end, and the bytes the reader accepts.
-/

set_option autoImplicit false

namespace Bristlemouth.Parser

open Bytes Config

/-- What follows the head that `v` is on: the items its head counts, or items up to a break. -/
structure Contents (d : Nat) (v : Value) (major info : Nat) (argument : Bytes) (items : List Bytes)
    (rest : Bytes) : Prop where
  each : ∀ b ∈ items, Cbor.Item d b
  drop : v.buf.drop (v.pos + (1 + argument.length)) = items.flatten ++ rest
  counted : info ≤ 27 → items.length = Cbor.itemsPer major * argumentOf info argument
  broken : info = 31 → rest[0]? = some breakByte
  paired : info = 31 → ∃ n, items.length = Cbor.itemsPer major * n

/-- An iterator that has been through a container's `n` bytes up to the end of the last item. -/
structure Through (v w : Value) (info n : Nat) : Prop where
  remaining : w.remaining = 0
  ty : w.ty = invalid
  unknownLength : w.flags.unknownLength = decide (info = 31)
  pos : w.pos = v.pos + n
  buf : w.buf = v.buf

namespace Value

section
variable {u : Usize} {v w r : Value} {major info d : Nat} {argument : Bytes}

/-- A container's iterator on its first item. -/
structure Inside (v r : Value) (major n : Nat) (remaining : UInt32) : Prop where
  on : ∃ major info argument, On r major info argument
  pos : r.pos = v.pos + n
  buf : r.buf = v.buf
  remaining : r.remaining = remaining
  isMap : r.flags.containerIsMap = decide (major = 5)
  nextIsMapKey : r.flags.nextIsMapKey = false

/-- The inside of a container before its first item is looked at. -/
def inner (v : Value) (n : Nat) (remaining : UInt32) : Value :=
  { v with
    pos := v.pos + n
    remaining
    flags := { Flags.none with containerIsMap := v.ty &&& 0x20 ≠ 0 } }

theorem inner_isMap (hon : On v major info argument) (hm : major = 4 ∨ major = 5) (n : Nat)
    (remaining : UInt32) : (v.inner n remaining).flags.containerIsMap = decide (major = 5) := by
  have hty : v.ty = UInt8.ofNat (32 * major) := (hon.ty_iff (by omega) (by omega)).mpr rfl
  rw [inner, hty]
  rcases hm with rfl | rfl
  · rfl
  · rfl

theorem enterFirst_eq (v : Value) (n : Nat) (remaining : UInt32) :
    enterFirst u { v with pos := v.pos + n, remaining } =
      ((v.inner n remaining).preparseNextValueNodecrement u).get := rfl

theorem get_eq_ok {c : Changed} (h : c.get = .ok w) : c = (w, .ok ()) := by
  obtain ⟨x, result⟩ := c
  cases result with
  | error e => cases h
  | ok _ =>
    cases h
    rfl

theorem enterFirst_cases (hon : On v major info argument) (hm : major = 4 ∨ major = 5) {n : Nat}
    {remaining : UInt32} (hpos : v.pos + n < 2 ^ 31)
    (h : enterFirst u { v with pos := v.pos + n, remaining } = .ok r) :
    Inside v r major n remaining ∨
      remaining = unbounded ∧ v.buf[v.pos + n]? = some breakByte ∧ Through v r 31 n := by
  rw [enterFirst_eq] at h
  rcases nodecrement_cases (show (v.inner n remaining).pos < 2 ^ 31 from hpos) (get_eq_ok h) with
    ⟨hopen, hbyte, -, -, hended⟩ | ⟨hp, hkept, hon'⟩
  · exact .inr ⟨hopen, hbyte, hended.remaining, hended.ty, hended.unknownLength, hended.pos, hended.buf⟩
  · refine .inl ⟨hon', hp, hkept.buf, hkept.remaining, ?_, hkept.nextIsMapKey⟩
    rw [hkept.isMap, inner_isMap hon hm]

/-- Entering a container that counts its items. -/
theorem enter_definite (hon : On v major info argument) (hm : major = 4 ∨ major = 5) (hi : info ≤ 27)
    (hpos : v.pos < 2 ^ 31) :
    2 ^ 31 ≤ Cbor.itemsPer major * argumentOf info argument ∧ v.enterContainer u = fail .dataTooLarge ∨
    ∃ remaining : UInt32, remaining ≠ unbounded ∧
      remaining.toNat = Cbor.itemsPer major * argumentOf info argument ∧
      ((remaining = 0 ∧ ∃ r, v.enterContainer u = .ok r ∧ Through v r info (1 + argument.length)) ∨
        remaining ≠ 0 ∧ v.enterContainer u =
          enterFirst u { v with pos := v.pos + (1 + argument.length), remaining }) := by
  obtain ⟨x, hx, harg⟩ := extractNumberAndAdvance_on (u := u) hon hi hpos
  have hvalue := harg (by omega)
  have hcontainer : v.isContainer = true := hon.container_iff.mpr hm
  have hknown : v.flags.unknownLength = false := by
    rw [hon.unknownLength, decide_eq_false_iff_not]
    omega
  have hmap : v.ty = map ↔ major = 5 := hon.ty_iff (k := 5) (by decide) (by decide)
  have hround : x.toUInt32.toUInt64 ≠ x ↔ 2 ^ 32 ≤ x.toNat := by
    rw [Ne, ← UInt64.toNat_inj, UInt32.toNat_toUInt64, UInt64.toNat_toUInt32]
    omega
  have hmax : x = 0xffffffff ↔ x.toNat = 2 ^ 32 - 1 := by
    rw [← UInt64.toNat_inj]
    exact Iff.rfl
  simp only [enterContainer, hcontainer, Bool.not_true, Bool.false_eq_true, if_false, hknown, hx, bind,
    Except.bind]
  by_cases htoo : x.toUInt32.toUInt64 ≠ x ∨ x = 0xffffffff
  · left
    refine ⟨?_, if_pos htoo⟩
    rw [hround, hmax, hvalue] at htoo
    have hper : 1 ≤ Cbor.itemsPer major := by rcases hm with rfl | rfl <;> decide
    exact (show 2 ^ 31 ≤ argumentOf info argument by omega).trans (Nat.le_mul_of_pos_left _ hper)
  · obtain ⟨hsame, hnotmax⟩ := not_or.mp htoo
    rw [hround] at hsame
    rw [hmax] at hnotmax
    have hnat : x.toUInt32.toNat = x.toNat := by
      rw [UInt64.toNat_toUInt32]
      exact Nat.mod_eq_of_lt (by omega)
    have hzero : x = 0 ↔ x.toNat = 0 := by
      rw [← UInt64.toNat_inj]
      exact Iff.rfl
    rw [if_neg htoo]
    rcases hm with rfl | rfl
    · have hnot : ¬ v.ty = map := by simp [hmap]
      right
      rw [if_neg (fun h => hnot h.1), if_neg hnot]
      refine ⟨x.toUInt32, ?_, ?_, ?_⟩
      · intro hopen
        have hunbounded := congrArg UInt32.toNat hopen
        change x.toUInt32.toNat = 2 ^ 32 - 1 at hunbounded
        omega
      · rw [hnat, hvalue, show Cbor.itemsPer 4 = 1 from rfl, Nat.one_mul]
      · by_cases hempty : x = 0
        · left
          rw [hempty]
          exact ⟨rfl, _, if_pos rfl, rfl, rfl, by rw [← hon.unknownLength], rfl, rfl⟩
        · right
          refine ⟨?_, if_neg hempty⟩
          intro h0
          rw [hzero, ← hnat, h0] at hempty
          exact hempty rfl
    · have hmapped : v.ty = map := hmap.mpr rfl
      by_cases hbig : x.toUInt32 > 0x7fffffff
      · left
        refine ⟨?_, if_pos ⟨hmapped, hbig⟩⟩
        have hlarge : 2 ^ 31 - 1 < x.toUInt32.toNat := hbig
        rw [show Cbor.itemsPer 5 = 2 from rfl]
        omega
      · have hsmall : ¬ 2 ^ 31 - 1 < x.toUInt32.toNat := hbig
        have hdouble : (x.toUInt32 * 2).toNat = 2 * x.toNat := by
          rw [UInt32.toNat_mul, hnat]
          change x.toNat * 2 % 2 ^ 32 = 2 * x.toNat
          omega
        right
        rw [if_neg (fun h => hbig h.2), if_pos hmapped, if_pos (by omega)]
        refine ⟨x.toUInt32 * 2, ?_, ?_, ?_⟩
        · intro hopen
          have hunbounded := congrArg UInt32.toNat hopen
          change (x.toUInt32 * 2).toNat = 2 ^ 32 - 1 at hunbounded
          omega
        · rw [hdouble, hvalue, show Cbor.itemsPer 5 = 2 from rfl]
        · by_cases hempty : x = 0
          · left
            rw [hempty]
            exact ⟨rfl, _, if_pos rfl, rfl, rfl, by rw [← hon.unknownLength], rfl, rfl⟩
          · right
            refine ⟨?_, if_neg hempty⟩
            intro h0
            rw [hzero] at hempty
            rw [h0] at hdouble
            change 0 = 2 * x.toNat at hdouble
            omega

theorem enter_unbounded (hon : On v major info argument) (hm : major = 4 ∨ major = 5) (hi : info = 31)
    (hpos : v.pos < 2 ^ 31) :
    v.enterContainer u = enterFirst u { v with pos := v.pos + 1, remaining := unbounded } := by
  have hmax := u.le_max
  have hcontainer : v.isContainer = true := hon.container_iff.mpr hm
  have hunknown : v.flags.unknownLength = true := by rw [hon.unknownLength, hi, decide_eq_true rfl]
  simp only [enterContainer, hcontainer, Bool.not_true, Bool.false_eq_true, if_false, hunknown, if_true,
    addUsize, bind, Except.bind]
  rw [if_pos (by omega)]

theorem paired_iff (hm : major = 4 ∨ major = 5) (n : Nat) :
    (∃ k, n = Cbor.itemsPer major * k) ↔ (decide (major = 5) = true → n % 2 = 0) := by
  rcases hm with rfl | rfl
  · constructor
    · rintro - h
      cases h
    · intro _
      exact ⟨n, (Nat.one_mul n).symm⟩
  · change (∃ k, n = 2 * k) ↔ _
    constructor
    · rintro ⟨k, rfl⟩ -
      exact Nat.mul_mod_right 2 k
    · intro h
      exact ⟨n / 2, by have := h rfl; omega⟩

/-- The items of a container, from its iterator's view. -/
theorem filled_iff_contents {remaining : UInt32} {items : List Bytes} {rest : Bytes}
    (hm : major = 4 ∨ major = 5) (hform : info ≤ 27 ∨ info = 31)
    (hinside : Inside v r major (1 + argument.length) remaining)
    (hcount : info ≤ 27 → remaining ≠ unbounded ∧
      remaining.toNat = Cbor.itemsPer major * argumentOf info argument)
    (hopen : info = 31 → remaining = unbounded) :
    Filled d r items rest ↔ Contents d v major info argument items rest := by
  have hunknown : r.remaining = unbounded ↔ info = 31 := by
    rw [hinside.remaining]
    refine ⟨fun h => ?_, hopen⟩
    rcases hform with hi | hi
    · exact absurd h (hcount hi).1
    · exact hi
  have hparity : (r.flags.containerIsMap = true →
      (items.length + r.flags.nextIsMapKey.toNat) % 2 = 0) ↔
      ∃ k, items.length = Cbor.itemsPer major * k := by
    rw [paired_iff hm, hinside.isMap, hinside.nextIsMapKey]
    rfl
  constructor
  · intro h
    refine ⟨h.each, ?_, ?_, fun hi => h.broken (hunknown.mpr hi), fun hi => ?_⟩
    · rw [← h.drop, hinside.buf, hinside.pos]
    · intro hi
      rw [h.counted (by rw [hinside.remaining]; exact (hcount hi).1), hinside.remaining, (hcount hi).2]
    · exact hparity.mp (h.paired (hunknown.mpr hi))
  · intro h
    refine ⟨h.each, ?_, ?_, fun hi => h.broken (hunknown.mp hi), fun hi => ?_⟩
    · rw [← h.drop, hinside.buf, hinside.pos]
    · intro hne
      have hi : info ≤ 27 := hform.resolve_right (mt hunknown.mpr hne)
      rw [h.counted hi, hinside.remaining, (hcount hi).2]
    · exact hparity.mpr (h.paired (hunknown.mp hi))

theorem On.form (hon : On v major info argument) :
    (info ≤ 27 ∨ info = 31) ∧ (info = 31 → argument = []) := by
  cases hon.head with
  | definite hm hi hlen htail hwide => exact ⟨.inl hi, fun h => by omega⟩
  | unbounded hm hm5 htail => exact ⟨.inr rfl, fun _ => rfl⟩

/-- What the iterator in a container that was entered knows of the head it is behind. -/
structure Counting (major info : Nat) (argument : Bytes) (remaining : UInt32) : Prop where
  live : remaining ≠ 0
  counted : info ≤ 27 → remaining ≠ unbounded ∧
    remaining.toNat = Cbor.itemsPer major * argumentOf info argument
  opened : info = 31 → remaining = unbounded

/-- A container is left as soon as it is entered, or it is entered on its first item. -/
theorem entered_cases (d : Nat) (hon : On v major info argument) (hm : major = 4 ∨ major = 5)
    (hlen : v.buf.length < 2 ^ 31) (h : v.enterContainer u = .ok r) :
    Through v r info (1 + argument.length) ∧ (∃ rest, Contents d v major info argument [] rest) ∨
    ∃ remaining, Inside v r major (1 + argument.length) remaining ∧
      Counting major info argument remaining := by
  have hlt := hon.pos_lt
  obtain ⟨hform, hempty⟩ := On.form hon
  rcases hform with hi | hi
  · have hfit : v.pos + (1 + argument.length) < 2 ^ 31 := by
      cases hon.head with
      | unbounded hm2 hm5 htail => omega
      | definite hm8 hi27 hargument htail hwide =>
        have htotal := congrArg List.length htail
        rw [List.length_drop, List.length_cons, List.length_append] at htotal
        omega
    rcases enter_definite (u := u) hon hm hi (by omega) with
      ⟨-, htoo⟩ | ⟨remaining, hbounded, hcount, ⟨hzero, r', hr', hthrough⟩ | ⟨hlive, hfirst⟩⟩
    · rw [htoo] at h
      cases h
    · rw [hr'] at h
      cases h
      refine .inl ⟨hthrough, v.buf.drop (v.pos + (1 + argument.length)), ?_, rfl, ?_, ?_, ?_⟩
      · intro b hb
        exact absurd hb List.not_mem_nil
      · intro _
        rw [← hcount, hzero]
        rfl
      · intro h31
        omega
      · intro h31
        omega
    · rw [hfirst] at h
      rcases enterFirst_cases hon hm hfit h with hinside | ⟨hopen, -, -⟩
      · refine .inr ⟨remaining, hinside, hlive, fun _ => ⟨hbounded, hcount⟩, fun h31 => ?_⟩
        omega
      · exact absurd hopen hbounded
  · obtain rfl := hempty hi
    rw [enter_unbounded hon hm hi (by omega)] at h
    rcases enterFirst_cases hon hm (n := 1) (by omega) h with hinside | ⟨-, hbreak, hthrough⟩
    · refine .inr ⟨unbounded, hinside, by decide, fun h27 => ?_, fun _ => rfl⟩
      omega
    · subst hi
      refine .inl ⟨hthrough, v.buf.drop (v.pos + 1), ?_, rfl, ?_, ?_, ?_⟩
      · intro b hb
        exact absurd hb List.not_mem_nil
      · intro h27
        omega
      · intro _
        rw [← hbreak]
        simp
      · intro _
        exact ⟨0, rfl⟩

theorem through_of_closed {remaining : UInt32} {n : Nat} (hon : On v major info argument)
    (hinside : Inside v r major (1 + argument.length) remaining)
    (hcounting : Counting major info argument remaining) (hclosed : Closed r w n) :
    Through v w info (1 + argument.length + n) where
  remaining := hclosed.remaining
  ty := hclosed.ty
  unknownLength := by
    rw [hclosed.unknownLength, hinside.remaining, decide_eq_decide]
    refine ⟨fun hopen => ?_, hcounting.opened⟩
    rcases (On.form hon).1 with hi | hi
    · exact absurd hopen (hcounting.counted hi).1
    · exact hi
  pos := by rw [hclosed.pos, hinside.pos, Nat.add_assoc]
  buf := hclosed.buf.trans hinside.buf

theorem contents_sound {step : Value → Changed} (hstep : Steps u d step)
    (hon : On v major info argument) (hm : major = 4 ∨ major = 5) (hlen : v.buf.length < 2 ^ 31)
    {fuel : Nat} (hfuel : 0 < fuel) (henter : v.enterContainer u = .ok r)
    (hloop : untilEnd step fuel r = (w, .ok ())) :
    ∃ items rest, Contents d v major info argument items rest ∧
      Through v w info (1 + argument.length + items.flatten.length) := by
  rcases entered_cases d hon hm hlen henter with
    ⟨hthrough, rest, hcontents⟩ | ⟨remaining, hinside, hcounting⟩
  · rw [untilEnd_ended step hfuel hthrough.remaining] at hloop
    cases hloop
    exact ⟨[], rest, hcontents, hthrough⟩
  · obtain ⟨major', info', argument', hon'⟩ := hinside.on
    have hlive : r.remaining ≠ 0 := hinside.remaining ▸ hcounting.live
    obtain ⟨items, rest, hfilled, hclosed⟩ :=
      untilEnd_sound hstep hon' hlive (hinside.buf ▸ hlen) hloop
    exact ⟨items, rest,
      (filled_iff_contents hm (On.form hon).1 hinside hcounting.counted hcounting.opened).mp hfilled,
      through_of_closed hon hinside hcounting hclosed⟩

/-- A container of unknown length with nothing but its break. -/
theorem enterFirst_break (hon : On v major info argument) (hm : major = 4 ∨ major = 5) {n : Nat}
    (hbreak : v.buf[v.pos + n]? = some breakByte) :
    ∃ r, enterFirst u { v with pos := v.pos + n, remaining := unbounded } = .ok r := by
  have hty : (v.inner n unbounded).ty ≠ tag := by
    intro htag
    have hsix : major = 6 := hon.tag_iff.mp htag
    omega
  have hstop : ¬ ((v.inner n unbounded).flags.containerIsMap ∧ (v.inner n unbounded).flags.nextIsMapKey ∨
      (v.inner n unbounded).ty = tag) := by
    rintro (⟨-, hnext⟩ | htag)
    · cases hnext
    · exact hty htag
  rw [enterFirst_eq, preparseNextValueNodecrement, if_pos ⟨rfl, hbreak⟩, if_neg hstop]
  exact ⟨_, rfl⟩

theorem enterFirst_item {n : Nat} {remaining : UInt32} {m i : Nat} {a : Bytes}
    (hfit : v.pos + n < 2 ^ 31) (hhead : HeadAt (v.buf.drop (v.pos + n)) m i a) :
    ∃ r, enterFirst u { v with pos := v.pos + n, remaining } = .ok r := by
  obtain ⟨r, hr⟩ := nodecrement_item (u := u) (w := v.inner n remaining) hfit hhead
  exact ⟨r, by rw [enterFirst_eq, hr]; rfl⟩

/-- A container whose contents are well formed is entered. -/
theorem enter_complete {items : List Bytes} {rest : Bytes} (hon : On v major info argument)
    (hm : major = 4 ∨ major = 5) (hlen : v.buf.length < 2 ^ 31)
    (hcontents : Contents d v major info argument items rest) : ∃ r, v.enterContainer u = .ok r := by
  have hlt := hon.pos_lt
  obtain ⟨hform, hempty⟩ := On.form hon
  have hfit : v.pos + (1 + argument.length) + items.flatten.length ≤ v.buf.length := by
    apply length_drop_of_append _ hcontents.drop
    cases hon.head with
    | unbounded hm2 hm5 htail => exact hlt
    | definite hm8 hi27 hargument htail hwide =>
      have htotal := congrArg List.length htail
      rw [List.length_drop, List.length_cons, List.length_append] at htotal
      omega
  -- the first item, if there is one
  have hfirst : items ≠ [] → ∀ remaining, ∃ r,
      enterFirst u { v with pos := v.pos + (1 + argument.length), remaining } = .ok r := by
    intro hne remaining
    obtain ⟨b, items, rfl⟩ := List.exists_cons_of_ne_nil hne
    have hdrop := hcontents.drop
    rw [List.flatten_cons, List.append_assoc] at hdrop
    obtain ⟨m, i, a, hhead⟩ := headAt_of_item (hcontents.each b List.mem_cons_self) (items.flatten ++ rest)
    exact enterFirst_item (by omega) (hdrop ▸ hhead)
  rcases hform with hi | hi
  · have hitems : items.length ≤ items.flatten.length := by
      rw [List.length_flatten, ← List.length_map List.length]
      apply List.length_le_sum_of_one_le
      intro n hn
      obtain ⟨b, hb, rfl⟩ := List.mem_map.mp hn
      exact (hcontents.each b hb).length_pos
    rcases enter_definite (u := u) hon hm hi (by omega) with
      ⟨hlarge, -⟩ | ⟨remaining, -, hcount, ⟨-, r, hr, -⟩ | ⟨hlive, hr⟩⟩
    · rw [← hcontents.counted hi] at hlarge
      omega
    · exact ⟨r, hr⟩
    · rw [hr]
      apply hfirst
      rintro rfl
      rw [← hcontents.counted hi] at hcount
      exact hlive (UInt32.toNat_inj.mp hcount)
  · obtain rfl := hempty hi
    rw [enter_unbounded hon hm hi (by omega)]
    by_cases hne : items = []
    · apply enterFirst_break hon hm
      rw [← hcontents.broken hi]
      have hdrop := hcontents.drop
      rw [hne, List.flatten_nil, List.nil_append] at hdrop
      rw [← hdrop]
      simp
    · exact hfirst hne unbounded

theorem contents_complete {step : Value → Changed} (hstep : Steps u d step) {items : List Bytes}
    {rest : Bytes} (hon : On v major info argument) (hm : major = 4 ∨ major = 5)
    (hlen : v.buf.length < 2 ^ 31) (hcontents : Contents d v major info argument items rest) :
    ∃ r w, v.enterContainer u = .ok r ∧ untilEnd step (v.buf.length + 1) r = (w, .ok ()) ∧
      Through v w info (1 + argument.length + items.flatten.length) := by
  obtain ⟨r, henter⟩ := enter_complete (u := u) hon hm hlen hcontents
  refine ⟨r, ?_⟩
  rcases entered_cases d hon hm hlen henter with
    ⟨hthrough, rest', hnone⟩ | ⟨remaining, hinside, hcounting⟩
  · -- it was left at once, so there is no first item
    have hempty : items = [] := by
      rcases (On.form hon).1 with hi | hi
      · have hzero := hcontents.counted hi
        rw [← hnone.counted hi, List.length_nil, List.length_eq_zero_iff] at hzero
        exact hzero
      · by_contra hne
        obtain ⟨b, items, rfl⟩ := List.exists_cons_of_ne_nil hne
        obtain ⟨m, i, a, hhead⟩ :=
          headAt_of_item (hcontents.each b List.mem_cons_self) (items.flatten ++ rest)
        apply hhead.not_break
        rw [← hnone.broken hi, ← List.append_assoc, ← List.flatten_cons, ← hcontents.drop, hnone.drop]
        rfl
    subst hempty
    exact ⟨r, henter, untilEnd_ended step (Nat.succ_pos _) hthrough.remaining, hthrough⟩
  · obtain ⟨major', info', argument', hon'⟩ := hinside.on
    have hfilled :=
      (filled_iff_contents hm (On.form hon).1 hinside hcounting.counted hcounting.opened).mpr hcontents
    have hlive : r.remaining ≠ 0 := hinside.remaining ▸ hcounting.live
    have hfuel : items.flatten.length < v.buf.length + 1 := by
      have htotal := congrArg List.length hcontents.drop
      rw [List.length_drop, List.length_append] at htotal
      omega
    obtain ⟨w, hloop, hclosed⟩ :=
      untilEnd_complete hstep hon' hlive (hinside.buf ▸ hlen) hfilled hfuel
    exact ⟨w, henter, hloop, through_of_closed hon hinside hcounting hclosed⟩

end

end Value

end Bristlemouth.Parser
