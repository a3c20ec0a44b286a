import Bristlemouth.Parser.Containers

/-!
# What the reader accepts

`advance` is shown to take exactly one well-formed item, by induction on the nesting it follows.
-/

set_option autoImplicit false

namespace Bristlemouth.Parser

open Bytes Config

namespace Value

section
variable {u : Usize} {v w r : Value} {major info d : Nat} {argument : Bytes}

/-- The bytes of a container, with its break. -/
def containerLength (info : Nat) (argument : Bytes) (items : List Bytes) : Nat :=
  1 + argument.length + items.flatten.length + if info = 31 then 1 else 0

theorem item_of_contents {items : List Bytes} {rest : Bytes} (hon : On v major info argument)
    (hm : major = 4 ∨ major = 5) (h : Contents d v major info argument items rest) :
    ∃ b rest', v.buf.drop v.pos = b ++ rest' ∧ Cbor.Item (d + 1) b ∧
      b.length = containerLength info argument items := by
  have hafter := h.drop
  cases hon.head with
  | definite hm8 hi hargument htail hwide =>
    have hhead := isHead_of_argument major hi hargument
    have hsplit : v.buf.drop v.pos = (Cbor.initial major info :: argument) ++ (items.flatten ++ rest) := by
      rw [← hafter, htail, ← List.cons_append]
      congr 1
      rw [← List.cons_append] at htail
      rw [← drop_add_of_append htail, List.length_cons, Nat.add_comm argument.length 1]
    refine ⟨(Cbor.initial major info :: argument) ++ items.flatten, rest, ?_,
      .container hm hhead (h.counted hi) h.each, ?_⟩
    · rw [hsplit, List.append_assoc]
    · rw [containerLength, if_neg (by omega), List.length_append, List.length_cons]
      omega
  | unbounded hm2 hm5 htail =>
    obtain ⟨n, hlen⟩ := h.paired rfl
    obtain ⟨rest', rfl⟩ : ∃ rest', rest = Cbor.breakCode :: rest' := by
      have hbreak := h.broken rfl
      cases rest with
      | nil => cases hbreak
      | cons x rest' =>
        cases hbreak
        exact ⟨rest', rfl⟩
    refine ⟨Cbor.initial major 31 :: (items.flatten ++ [Cbor.breakCode]), rest', ?_,
      .unbounded hm hlen h.each, ?_⟩
    · rw [htail, ← drop_succ htail, List.cons_append, List.append_assoc]
      exact congrArg _ hafter
    · rw [containerLength, if_pos rfl, List.length_cons, List.length_append, List.length_nil,
        List.length_singleton]
      omega

theorem contents_of_item {n : Nat} {b rest : Bytes} (hon : On v major info argument)
    (hm : major = 4 ∨ major = 5) (hb : Cbor.Item n b) (hdrop : v.buf.drop v.pos = b ++ rest) :
    ∃ d items rest', n = d + 1 ∧ Contents d v major info argument items rest' ∧
      b.length = containerLength info argument items := by
  cases itemOn_of_item hon hb hdrop with
  | fixed hm2 hlen => omega
  | string hm2 hi hh => omega
  | chunked hm2 hi hchunks => omega
  | tagged hm2 hh hc => omega
  | @container d h items hm2 hi hlen hcount hitems =>
    rw [List.append_assoc] at hdrop
    refine ⟨d, items, rest, rfl, ⟨hitems, ?_, fun _ => hcount, fun h31 => ?_, fun h31 => ?_⟩, ?_⟩
    · rw [← hlen]
      exact drop_add_of_append hdrop
    · omega
    · omega
    · rw [containerLength, if_neg (by omega), List.length_append, hlen, Nat.add_zero]
  | @unbounded d n items hm2 hi hcount hitems =>
    obtain rfl := (On.form hon).2 hi
    refine ⟨d, items, Cbor.breakCode :: rest, rfl,
      ⟨hitems, ?_, fun h27 => ?_, fun _ => rfl, fun _ => ⟨n, hcount⟩⟩, ?_⟩
    · rw [List.cons_append, List.append_assoc] at hdrop
      exact drop_succ hdrop
    · omega
    · rw [containerLength, if_pos hi, List.length_cons, List.length_append, List.length_nil,
        List.length_singleton]
      omega

/-- Leaving a container goes on behind it. -/
theorem leave_eq {n : Nat} (hon : On v major info argument) (hm : major = 4 ∨ major = 5)
    (hthrough : Through v r info n) (hfit : v.pos + n + 1 < 2 ^ 32) :
    v.leaveContainer u r =
      ({ v with pos := v.pos + (n + if info = 31 then 1 else 0) } : Value).preparseNextValue u := by
  have hmax := u.le_max
  have hcontainer : v.isContainer = true := hon.container_iff.mpr hm
  have hty := hthrough.ty
  simp only [leaveContainer, hcontainer, hty, Bool.not_true, ne_eq, not_true_eq_false, decide_false,
    Bool.or_self, Bool.false_eq_true, if_false, hthrough.unknownLength, hthrough.pos, decide_eq_true_eq]
  by_cases hi : info = 31
  · rw [if_pos hi, if_pos hi, addUsize, if_pos (by omega)]
    rfl
  · rw [if_neg hi, if_neg hi]
    rfl

/-- The iterator `n` bytes on, with nothing else changed. -/
theorem moved_self (v : Value) (n : Nat) : Moved v { v with pos := v.pos + n } n :=
  ⟨⟨rfl, rfl, rfl, rfl⟩, rfl, rfl, rfl⟩

theorem advanceInternal_on (hon : On v major info argument) (hi : info ≤ 27) (hpos : v.pos < 2 ^ 31) :
    v.advanceInternal u =
      ({ v with pos := v.pos + (1 + argument.length) } : Value).preparseNextValue u := by
  obtain ⟨x, hx, -⟩ := extractNumberAndAdvance_on (u := u) hon hi hpos
  simp only [advanceInternal, hx]

theorem fixed_form (hon : On v major info argument) (hm : major < 2 ∨ 5 < major) : info ≤ 27 := by
  obtain ⟨-, -, hform, -⟩ := hon.head.bounds
  omega

/-- A head that stands for itself, or the head of a tag. -/
theorem stepOf_fixed (hon : On v major info argument) (hm : major < 2 ∨ 5 < major) :
    ∃ b rest, v.buf.drop v.pos = b ++ rest ∧ StepOf d v b ∧ b.length = 1 + argument.length := by
  cases hon.head with
  | unbounded hm2 hm5 htail => omega
  | @definite _ _ rest hm8 hi hargument htail hwide =>
    have hhead := isHead_of_argument major hi hargument
    refine ⟨Cbor.initial major info :: argument, rest, htail, ⟨?_, ?_⟩, ?_⟩
    · intro hty
      obtain rfl := hon.tag_iff.mp hty
      exact ⟨_, hhead⟩
    · intro hty
      have hne : major ≠ 6 := mt hon.tag_iff.mpr hty
      by_cases hsmall : major < 2
      · exact .integer (by omega) hhead
      · obtain rfl : major = 7 := by omega
        refine .simple hhead ?_
        intro hlen
        have hone : needed (UInt8.ofNat info) = 1 := by
          rw [← hargument]
          exact Nat.succ_injective hlen
        have h24 : info = 24 := by
          by_cases hshort : info < 24
          · rw [needed_short hshort] at hone
            cases hone
          · obtain ⟨k, rfl⟩ := Nat.exists_eq_add_of_le (not_lt.mp hshort)
            rw [needed_long (by omega)] at hone
            rcases k with _ | k
            · rfl
            · rw [Nat.pow_succ] at hone
              omega
        rw [argumentOf, if_neg (by omega)]
        exact hwide rfl h24
    · rw [List.length_cons, Nat.add_comm]

theorem length_of_stepOf {b rest : Bytes} (hon : On v major info argument) (hm : major < 2 ∨ 5 < major)
    (hb : StepOf d v b) (hdrop : v.buf.drop v.pos = b ++ rest) : b.length = 1 + argument.length := by
  by_cases hty : v.ty = tag
  · obtain ⟨arg, hh⟩ := hb.tagged hty
    exact (hon.of_isHead (by decide) hh hdrop).2.2.1
  · have hne : major ≠ 6 := mt hon.tag_iff.mpr hty
    cases itemOn_of_item hon (hb.item hty) hdrop with
    | fixed hm2 hlen => exact hlen
    | string hm2 hi hh => omega
    | chunked hm2 hi hchunks => omega
    | container hm2 hi hlen hcount hitems => omega
    | unbounded hm2 hi hcount hitems => omega
    | tagged hm2 hh hc => omega

/-- Any string of the grammar is walked over. -/
theorem string_complete {b rest : Bytes} (hon : On v major info argument) (hm : major = 2 ∨ major = 3)
    (hlen : v.buf.length < 2 ^ 31) (hb : Cbor.Item d b) (hdrop : v.buf.drop v.pos = b ++ rest)
    (buflen : Nat) : ∃ x, Moved v x b.length ∧ Walked u v x buflen := by
  cases itemOn_of_item hon hb hdrop with
  | fixed hm2 hlength => omega
  | string hm2 hi hh =>
    rw [List.append_assoc] at hdrop
    exact walked_definite hon hm hi hlen buflen hh hdrop
  | chunked hm2 hi hchunks =>
    rw [List.cons_append, List.append_assoc] at hdrop
    obtain ⟨x, hmoved, hwalked⟩ := walked_chunked (u := u) hon hm hi hlen buflen hchunks hdrop
    refine ⟨x, ?_, hwalked⟩
    rw [List.length_cons, List.length_append]
    exact hmoved
  | container hm2 hi hlength hcount hitems => omega
  | unbounded hm2 hi hcount hitems => omega
  | tagged hm2 hh hc => omega

theorem advanceRecursive_fixed (n : Nat) (hon : On v major info argument)
    (hm : major < 2 ∨ 5 < major) : v.advanceRecursive u n = v.advanceInternal u := by
  rw [advanceRecursive.eq_def, if_pos (hon.fixed_iff.mpr hm)]

theorem advanceRecursive_string (n : Nat) (hon : On v major info argument)
    (hm : major = 2 ∨ major = 3) :
    v.advanceRecursive u n = match (v.iterateString u u.max).2 with
      | .error h => (v, .error h)
      | .ok (_, next) => (next, .ok ()) := by
  have hfixed : ¬ isFixedType v.ty = true := by
    rw [hon.fixed_iff]
    omega
  have hcontainer : ¬ v.isContainer = true := by
    rw [hon.container_iff]
    omega
  rw [Bool.not_eq_true] at hcontainer
  rw [advanceRecursive.eq_def, if_neg hfixed, hcontainer]
  rfl

theorem advanceRecursive_container (n : Nat) (hon : On v major info argument)
    (hm : major = 4 ∨ major = 5) :
    v.advanceRecursive u n = match n with
      | 0 => (v, fail .nestingTooDeep)
      | n + 1 =>
        match v.enterContainer u with
        | .error h => (v, .error h)
        | .ok recursed =>
          match untilEnd (advanceRecursive u n) (v.buf.length + 1) recursed with
          | (_, .error h) => (v, .error h)
          | (recursed, .ok ()) => v.leaveContainer u recursed := by
  have hfixed : ¬ isFixedType v.ty = true := by
    rw [hon.fixed_iff]
    omega
  rw [advanceRecursive.eq_def, if_neg hfixed, hon.container_iff.mpr hm]
  cases n with
  | zero => rfl
  | succ n => rfl

theorem advance_sound {n : Nat} (hinner : ∀ m, n = m + 1 → Steps u m (advanceRecursive u m))
    (hlen : v.buf.length < 2 ^ 31) (hon : On v major info argument)
    (h : advanceRecursive u n v = (w, .ok ())) :
    ∃ b rest x, v.buf.drop v.pos = b ++ rest ∧ StepOf n v b ∧ Moved v x b.length ∧
      x.preparseNextValue u = (w, .ok ()) := by
  have hlt := hon.pos_lt
  have hm8 := hon.head.bounds.1
  have hitem : ∀ {b : Bytes}, major ≠ 6 → Cbor.Item n b → StepOf n v b := fun hne hb =>
    ⟨fun htag => absurd (hon.tag_iff.mp htag) hne, fun _ => hb⟩
  obtain hm | hm | hm : (major < 2 ∨ 5 < major) ∨ (major = 2 ∨ major = 3) ∨ (major = 4 ∨ major = 5) := by
    omega
  · rw [advanceRecursive_fixed n hon hm, advanceInternal_on hon (fixed_form hon hm) (by omega)] at h
    obtain ⟨b, rest, hdrop, hstep, hlength⟩ := stepOf_fixed hon hm
    rw [← hlength] at h
    exact ⟨b, rest, _, hdrop, hstep, moved_self v b.length, h⟩
  · rw [advanceRecursive_string n hon hm] at h
    cases hwalk : (v.iterateString u u.max).2 with
    | error e =>
      rw [hwalk] at h
      cases h
    | ok walked =>
      rw [hwalk] at h
      cases h
      obtain ⟨b, rest, x, hdrop, hb, hmoved, hnext⟩ := iterateString_sound hon hm hlen hwalk
      exact ⟨b, rest, x, hdrop, hitem (by omega) (hb n), hmoved, hnext⟩
  · rw [advanceRecursive_container n hon hm] at h
    cases n with
    | zero => cases h
    | succ n =>
      have hstep := hinner n rfl
      cases henter : v.enterContainer u with
      | error e =>
        rw [henter] at h
        cases h
      | ok r =>
        obtain ⟨r', result, hloop⟩ : ∃ r' result,
            untilEnd (advanceRecursive u n) (v.buf.length + 1) r = (r', result) := ⟨_, _, rfl⟩
        rw [henter] at h
        simp only [hloop] at h
        cases result with
        | error e => cases h
        | ok _ =>
          obtain ⟨items, rest, hcontents, hthrough⟩ :=
            contents_sound hstep hon hm hlen (Nat.succ_pos _) henter hloop
          obtain ⟨b, rest', hdrop, hb, hlength⟩ := item_of_contents hon hm hcontents
          have hfit := length_drop_of_append (by omega) hdrop
          have hbound : 1 + argument.length + items.flatten.length ≤ b.length := by
            rw [hlength]
            exact Nat.le_add_right ..
          have h : v.leaveContainer u r' = (w, .ok ()) := h
          rw [leave_eq hon hm hthrough (by omega)] at h
          refine ⟨b, rest', _, hdrop, hitem (by omega) hb, moved_self v b.length, ?_⟩
          rw [hlength]
          exact h

theorem advance_complete {n : Nat} {b rest : Bytes}
    (hinner : ∀ m, n = m + 1 → Steps u m (advanceRecursive u m)) (hlen : v.buf.length < 2 ^ 31)
    (hon : On v major info argument) (hdrop : v.buf.drop v.pos = b ++ rest) (hb : StepOf n v b) :
    ∃ x, Moved v x b.length ∧
      ∀ w, x.preparseNextValue u = (w, .ok ()) → advanceRecursive u n v = (w, .ok ()) := by
  have hlt := hon.pos_lt
  have hm8 := hon.head.bounds.1
  obtain hm | hm | hm : (major < 2 ∨ 5 < major) ∨ (major = 2 ∨ major = 3) ∨ (major = 4 ∨ major = 5) := by
    omega
  · refine ⟨_, moved_self v b.length, fun w hw => ?_⟩
    rw [length_of_stepOf hon hm hb hdrop] at hw
    rw [advanceRecursive_fixed n hon hm, advanceInternal_on hon (fixed_form hon hm) (by omega)]
    exact hw
  · have hitem := hb.item (mt hon.tag_iff.mp (by omega))
    obtain ⟨x, hmoved, copied, hwalked⟩ := string_complete (u := u) hon hm hlen hitem hdrop u.max
    refine ⟨x, hmoved, fun w hw => ?_⟩
    rw [advanceRecursive_string n hon hm, hwalked, hw]
    rfl
  · have hitem := hb.item (mt hon.tag_iff.mp (by omega))
    obtain ⟨d, items, rest', rfl, hcontents, hlength⟩ := contents_of_item hon hm hitem hdrop
    obtain ⟨r, r', henter, hloop, hthrough⟩ := contents_complete (hinner d rfl) hon hm hlen hcontents
    have hfit := length_drop_of_append (by omega) hdrop
    have hbound : 1 + argument.length + items.flatten.length ≤ b.length := by
      rw [hlength]
      exact Nat.le_add_right ..
    refine ⟨_, moved_self v b.length, fun w hw => ?_⟩
    rw [advanceRecursive_container (d + 1) hon hm, henter]
    simp only [hloop]
    rw [leave_eq hon hm hthrough (by omega)]
    rw [hlength] at hw
    exact hw

/-- `advance_recursive` takes the items that nest no deeper than it is told. -/
theorem advance_steps (u : Usize) (n : Nat) : Steps u n (advanceRecursive u n) := by
  induction n with
  | zero =>
    exact ⟨fun hlen hon _ h => advance_sound (fun m hm => by cases hm) hlen hon h,
      fun hlen hon _ hdrop hb => advance_complete (fun m hm => by cases hm) hlen hon hdrop hb⟩
  | succ n ih =>
    have hinner : ∀ m, n + 1 = m + 1 → Steps u m (advanceRecursive u m) := by
      intro m hm
      obtain rfl := Nat.succ_injective hm
      exact ih
    exact ⟨fun hlen hon _ h => advance_sound hinner hlen hon h,
      fun hlen hon _ hdrop hb => advance_complete hinner hlen hon hdrop hb⟩

/-- The iterator that a buffer is parsed to. -/
structure First (bs : Bytes) (v : Value) : Prop where
  on : ∃ major info argument, On v major info argument
  pos : v.pos = 0
  buf : v.buf = bs
  remaining : v.remaining = 1

theorem parse_first {bs : Bytes} (h : parse u bs = .ok v) : First bs v := by
  obtain ⟨hpos, hkept, hon⟩ := preparse_on (u := u) (show (0 : Nat) < 2 ^ 31 by decide) (get_eq_ok h)
  exact ⟨hon, hpos, hkept.buf, hkept.remaining⟩

theorem parse_item {bs b rest : Bytes} (hb : Cbor.Item d b) (hsplit : bs = b ++ rest) :
    ∃ v, parse u bs = .ok v := by
  obtain ⟨major, info, argument, hhead⟩ := headAt_of_item hb rest
  obtain ⟨v, hv⟩ := preparse_of_head (u := u) (v := ⟨bs, 0, 1, .none, invalid, 0⟩)
    (show (0 : Nat) < 2 ^ 31 by decide) (hsplit ▸ hhead)
  exact ⟨v, by rw [parse, hv]; rfl⟩

theorem first_major {bs : Bytes} (hfirst : First bs v) (hon : On v major info argument)
    (htag : ∀ byte, bs[0]? = some byte → byte.toNat / 32 ≠ 6) : v.ty ≠ tag := by
  obtain ⟨hm, hi, -⟩ := hon.head.bounds
  obtain ⟨rest, hinitial⟩ := hon.head.initial
  rw [hfirst.buf, hfirst.pos, List.drop_zero] at hinitial
  have hbyte := htag (Cbor.initial major info) (by rw [hinitial]; rfl)
  rw [Ne, hon.tag_iff]
  change (32 * major + info) % 256 / 32 ≠ 6 at hbyte
  omega

theorem advance_eq (hon : On v major info argument) (hr : v.remaining = 1) :
    v.advance u = v.advanceRecursive u maxRecursions := by
  rw [advance, if_neg hon.valid, if_neg (by rw [hr]; decide)]

/-- Behind the only item there is the end. -/
theorem next_of_only (hty : w.ty ≠ tag) (hr : w.remaining = 1) :
    ∃ r, w.preparseNextValue u = (r, .ok ()) ∧ r.pos = w.pos := by
  rw [preparseNextValue_eq hty (by rw [hr]; decide), if_pos hr]
  exact ⟨_, rfl, rfl⟩

theorem advance_first_iff {bs : Bytes} (hlen : bs.length < 2 ^ 31) (hfirst : First bs v)
    (hty : v.ty ≠ tag) (n : Nat) :
    (∃ v', v.advance u = (v', .ok ()) ∧ v'.pos = n) ↔
      n ≤ bs.length ∧ Cbor.Item maxRecursions (bs.take n) := by
  obtain ⟨major, info, argument, hon⟩ := hfirst.on
  have hbuf : v.buf.drop v.pos = bs := by
    rw [hfirst.pos, hfirst.buf]
    rfl
  have hlen' : v.buf.length < 2 ^ 31 := by
    rw [hfirst.buf]
    exact hlen
  have hr : v.remaining ≠ 0 := by
    rw [hfirst.remaining]
    decide
  rw [advance_eq hon hfirst.remaining]
  have hnext : ∀ {x : Value} {k : Nat}, Moved v x k →
      ∃ r, x.preparseNextValue u = (r, .ok ()) ∧ r.pos = k := by
    intro x k hmoved
    obtain ⟨r, hr, hpos⟩ := next_of_only (u := u) (hmoved.ty.trans_ne hty)
      (hmoved.remaining.trans hfirst.remaining)
    refine ⟨r, hr, ?_⟩
    rw [hpos, hmoved.pos, hfirst.pos, Nat.zero_add]
  constructor
  · rintro ⟨v', hadvance, rfl⟩
    obtain ⟨b, rest, x, hdrop, hb, hmoved, hstep⟩ := (advance_steps u maxRecursions).sound hlen' hon hr hadvance
    obtain ⟨r, hnext, hpos⟩ := hnext hmoved
    rw [hnext] at hstep
    cases hstep
    rw [hbuf] at hdrop
    rw [hpos, hdrop, List.take_left, List.length_append]
    exact ⟨Nat.le_add_right .., hb.item hty⟩
  · rintro ⟨hn, hitem⟩
    have hdrop : v.buf.drop v.pos = bs.take n ++ bs.drop n := by
      rw [hbuf, List.take_append_drop]
    obtain ⟨x, hmoved, hcomplete⟩ := (advance_steps u maxRecursions).complete hlen' hon hr hdrop
      ⟨fun htag => absurd htag hty, fun _ => hitem⟩
    obtain ⟨r, hnext, hpos⟩ := hnext hmoved
    refine ⟨r, hcomplete r hnext, ?_⟩
    rw [hpos, List.length_take, Nat.min_eq_left hn]

end

end Value

/-- A slice whose first item is not a tag is taken as far as, and only if, there is one well-formed item
that nests no deeper than ten containers. -/
theorem accepts_exactly_items (u : Usize) (bs : Bytes) (hlen : bs.length < 2 ^ 31)
    (htag : ∀ byte, bs[0]? = some byte → byte.toNat / 32 ≠ 6) :
    (∀ n, (∃ v v', Value.parse u bs = .ok v ∧ v.advance u = (v', .ok ()) ∧ v'.pos = n) ↔
      n ≤ bs.length ∧ Cbor.Item 10 (bs.take n)) ∧
    ((∃ v, Value.parse u bs = .ok v ∧ v.validateBasic u = .ok ()) ↔
      ∃ n ≤ bs.length, Cbor.Item 10 (bs.take n)) := by
  have hadvance : ∀ n, (∃ v v', Value.parse u bs = .ok v ∧ v.advance u = (v', .ok ()) ∧ v'.pos = n) ↔
      n ≤ bs.length ∧ Cbor.Item 10 (bs.take n) := by
    intro n
    constructor
    · rintro ⟨v, v', hparse, hv'⟩
      have hfirst := Value.parse_first hparse
      obtain ⟨major, info, argument, hon⟩ := hfirst.on
      exact (Value.advance_first_iff hlen hfirst (Value.first_major hfirst hon htag) n).mp ⟨v', hv'⟩
    · rintro ⟨hn, hitem⟩
      obtain ⟨v, hparse⟩ := Value.parse_item (u := u) hitem (List.take_append_drop n bs).symm
      have hfirst := Value.parse_first hparse
      obtain ⟨major, info, argument, hon⟩ := hfirst.on
      obtain ⟨v', hv'⟩ :=
        (Value.advance_first_iff hlen hfirst (Value.first_major hfirst hon htag) n).mpr ⟨hn, hitem⟩
      exact ⟨v, v', hparse, hv'⟩
  refine ⟨hadvance, ?_⟩
  constructor
  · rintro ⟨v, hparse, hvalid⟩
    exact ⟨_, (hadvance _).mp ⟨v, (v.advance u).1, hparse, Prod.ext rfl hvalid, rfl⟩⟩
  · rintro ⟨n, hitem⟩
    obtain ⟨v, v', hparse, hv', -⟩ := (hadvance n).mpr hitem
    exact ⟨v, hparse, congrArg Prod.snd hv'⟩

/-- An array without a count, of a map with a chunked text, and a break behind it that belongs to nothing. -/
def nestedBeforeBreak : Bytes := [0x9f, 0xa1, 0x61, 0x61, 0x7f, 0x61, 0x62, 0xff, 0xff, 0xff]

theorem item_nestedBeforeBreak : Cbor.Item 10 (nestedBeforeBreak.take 9) := by
  have hhead : Cbor.IsHead 3 1 [0x61] := .short (by decide)
  have hkey : Cbor.Item 8 [0x61, 0x61] := @Cbor.Item.string 8 3 [0x61] [0x61] (.inr rfl) hhead
  have hchunks : Cbor.Chunks 3 [0x61, 0x62] := @Cbor.Chunks.cons 3 [0x61] [0x62] [] hhead .nil
  have hvalue : Cbor.Item 8 [0x7f, 0x61, 0x62, 0xff] := .chunked (.inr rfl) hchunks
  have hcount : Cbor.IsHead 5 1 [0xa1] := .short (by decide)
  have hmap : Cbor.Item 9 [0xa1, 0x61, 0x61, 0x7f, 0x61, 0x62, 0xff] := by
    refine @Cbor.Item.container 8 5 1 [0xa1] [[0x61, 0x61], [0x7f, 0x61, 0x62, 0xff]] (.inr rfl) hcount rfl ?_
    intro b hb
    rcases List.mem_pair.mp hb with rfl | rfl
    · exact hkey
    · exact hvalue
  exact @Cbor.Item.unbounded 9 4 1 [[0xa1, 0x61, 0x61, 0x7f, 0x61, 0x62, 0xff]] (.inl rfl) rfl
    (List.forall_mem_singleton.mpr hmap)

theorem accepts_exactly_items_nested :
    (∃ v v', Value.parse .bits32 nestedBeforeBreak = .ok v ∧ v.advance .bits32 = (v', .ok ()) ∧ v'.pos = 9) ∧
      ∃ v, Value.parse .bits32 nestedBeforeBreak = .ok v ∧ v.validateBasic .bits32 = .ok () := by
  obtain ⟨hadvance, hvalidate⟩ := accepts_exactly_items .bits32 nestedBeforeBreak (by decide)
    (fun byte h => by cases h; decide)
  exact ⟨(hadvance 9).mpr ⟨by decide, item_nestedBeforeBreak⟩,
    hvalidate.mpr ⟨9, by decide, item_nestedBeforeBreak⟩⟩

end Bristlemouth.Parser
