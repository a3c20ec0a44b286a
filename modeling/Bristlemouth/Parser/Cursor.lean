import Bristlemouth.Parser.Accepts

/-!
# The items ahead of an iterator

`Ahead` is an iterator in a container of counted items. What a decoder calls takes the item that is
there and leaves the others ahead.
-/

set_option autoImplicit false

namespace Bristlemouth.Parser

open Bytes Config

/-- The item does not start with a tag. -/
def Untagged (b : Bytes) : Prop := ∀ byte, b[0]? = some byte → byte.toNat / 32 ≠ 6

structure Ahead (buf : Bytes) (items : List Bytes) (rest : Bytes) (v : Value) : Prop where
  buf_eq : v.buf = buf
  short : buf.length < 2 ^ 31
  inside : v.pos ≤ buf.length
  drop : buf.drop v.pos = items.flatten ++ rest
  each : ∀ b ∈ items, Cbor.Item maxRecursions b ∧ Untagged b
  remaining : v.remaining.toNat = items.length
  on : items ≠ [] → ∃ major info argument, On v major info argument
  ended : items = [] → v.ty = invalid ∧ v.flags.unknownLength = false

theorem untagged_append {a : Bytes} (b : Bytes) (h : Untagged a) (ha : 0 < a.length) :
    Untagged (a ++ b) := by
  intro byte hbyte
  apply h byte
  rwa [List.getElem?_append_left ha] at hbyte

theorem untagged_isHead {major arg : Nat} {h : Bytes} (hh : Cbor.IsHead major arg h) (hm : major < 8)
    (hne : major ≠ 6) : Untagged h := by
  obtain ⟨info, argument, hi, -, rfl, -⟩ := argument_of_isHead hh
  intro byte hbyte
  cases hbyte
  change (32 * major + info) % 256 / 32 ≠ 6
  omega

theorem length_le_flatten {items : List Bytes} (h : ∀ b ∈ items, 0 < b.length) :
    items.length ≤ items.flatten.length := by
  induction items with
  | nil => exact Nat.le_refl 0
  | cons b items ih =>
    have hb := h b List.mem_cons_self
    have hrest := ih fun c hc => h c (List.mem_cons_of_mem b hc)
    rw [List.length_cons, List.flatten_cons, List.length_append]
    omega

namespace Ahead

open Value

section
variable {u : Usize} {buf b rest : Bytes} {items : List Bytes} {v : Value}

theorem flatten_le (h : Ahead buf items rest v) : v.pos + items.flatten.length ≤ buf.length :=
  length_drop_of_append h.inside h.drop

theorem length_le (h : Ahead buf items rest v) : items.length ≤ buf.length := by
  have hflat := length_le_flatten fun b hb => (h.each b hb).1.length_pos
  have hle := h.flatten_le
  omega

theorem counted (h : Ahead buf items rest v) : v.remaining ≠ unbounded := by
  intro hopen
  have hremaining := h.remaining
  have hle := h.length_le
  have hshort := h.short
  have hmany : unbounded.toNat = 2 ^ 32 - 1 := rfl
  rw [hopen] at hremaining
  omega

theorem live (h : Ahead buf (b :: items) rest v) : v.remaining ≠ 0 := by
  intro hzero
  have hremaining := h.remaining
  rw [hzero, List.length_cons] at hremaining
  cases hremaining

theorem item_le (h : Ahead buf (b :: items) rest v) : v.pos + b.length ≤ buf.length := by
  have hle := h.flatten_le
  rw [List.flatten_cons, List.length_append] at hle
  omega

theorem drop_eq (h : Ahead buf (b :: items) rest v) : v.buf.drop v.pos = b ++ (items.flatten ++ rest) := by
  rw [h.buf_eq, h.drop, List.flatten_cons, List.append_assoc]

theorem not_tag (h : Ahead buf (b :: items) rest v) : v.ty ≠ tag := by
  obtain ⟨major, info, argument, hon⟩ := h.on (List.cons_ne_nil b items)
  obtain ⟨hitem, huntagged⟩ := h.each b List.mem_cons_self
  obtain ⟨hm, hi, -⟩ := hon.head.bounds
  obtain ⟨tail, hinitial⟩ := hon.head.initial
  have hfirst : b[0]? = some (Cbor.initial major info) := by
    have hget := congrArg (fun l : Bytes => l[0]?) (h.drop_eq.symm.trans hinitial)
    rwa [List.getElem?_append_left hitem.length_pos, List.getElem?_cons_zero] at hget
  have hbyte := huntagged _ hfirst
  change (32 * major + info) % 256 / 32 ≠ 6 at hbyte
  rw [Ne, hon.tag_iff]
  omega

/-- The step behind the item. -/
theorem next (h : Ahead buf (b :: items) rest v) {x : Value} (hmoved : Moved v x b.length) :
    ∃ w, x.preparseNextValue u = (w, .ok ()) ∧ Ahead buf items rest w := by
  have hshort := h.short
  have hle := h.item_le
  have hxbuf : x.buf = buf := hmoved.buf.trans h.buf_eq
  have hty : x.ty ≠ tag := by
    rw [hmoved.ty]
    exact h.not_tag
  have hlive : x.remaining ≠ 0 := by
    rw [hmoved.remaining]
    exact h.live
  have hcounted : x.remaining ≠ unbounded := by
    rw [hmoved.remaining]
    exact h.counted
  have hremaining : x.remaining.toNat = items.length + 1 := by
    rw [hmoved.remaining]
    exact h.remaining
  have hpos : x.pos < 2 ^ 31 := by
    rw [hmoved.pos]
    omega
  have hdrop : buf.drop x.pos = items.flatten ++ rest := by
    have hsplit := h.drop_eq
    rw [h.buf_eq] at hsplit
    rw [hmoved.pos]
    exact drop_add_of_append hsplit
  cases items with
  | nil =>
    have hone : x.remaining = 1 := UInt32.toNat_inj.mp hremaining
    obtain ⟨w, hw⟩ := next_ended (u := u) hty hone
    refine ⟨w, hw, ?_⟩
    cases next_sound hpos hlive hw with
    | ended _ _ hended =>
      have hwpos : w.pos ≤ buf.length := by
        rw [hended.pos, hmoved.pos]
        exact hle
      exact ⟨hended.buf.trans hxbuf, hshort, hwpos, by rw [hended.pos]; exact hdrop, by simp,
        by rw [hended.remaining]; rfl, fun hne => absurd rfl hne, fun _ => ⟨hended.ty, hended.unknownLength⟩⟩
    | broke _ hopen => exact absurd hopen hcounted
    | item hr => exact absurd hone (hr hty)
  | cons c items =>
    have hne : x.remaining ≠ 1 := by
      intro hone
      rw [hone, List.length_cons] at hremaining
      change 1 = _ at hremaining
      omega
    have hc := h.each c (List.mem_cons_of_mem b List.mem_cons_self)
    obtain ⟨major, info, argument, hhead⟩ := headAt_of_item hc.1 (items.flatten ++ rest)
    have hhead' : HeadAt (x.buf.drop x.pos) major info argument := by
      rw [hxbuf, hdrop, List.flatten_cons, List.append_assoc]
      exact hhead
    obtain ⟨w, hw⟩ := next_item (u := u) hpos hlive (fun _ => hne) hhead'
    refine ⟨w, hw, ?_⟩
    cases next_sound hpos hlive hw with
    | ended _ hone => exact absurd hone hne
    | broke _ hopen => exact absurd hopen hcounted
    | item _ hon hwpos hbuf hwremaining =>
      rw [if_neg (not_or.mpr ⟨hty, hcounted⟩)] at hwremaining
      have hcount := remaining_sub_one hlive
      rw [← hwremaining, hremaining] at hcount
      refine ⟨hbuf.trans hxbuf, hshort, ?_, by rw [hwpos]; exact hdrop,
        fun d hd => h.each d (List.mem_cons_of_mem b hd), Nat.succ.inj hcount, fun _ => hon, nofun⟩
      rw [hwpos, hmoved.pos]
      exact hle

theorem advance (h : Ahead buf (b :: items) rest v) :
    ∃ w, v.advance u = (w, .ok ()) ∧ Ahead buf items rest w := by
  obtain ⟨major, info, argument, hon⟩ := h.on (List.cons_ne_nil b items)
  have hlen : v.buf.length < 2 ^ 31 := by
    rw [h.buf_eq]
    exact h.short
  have hstep : StepOf maxRecursions v b :=
    ⟨fun htag => absurd htag h.not_tag, fun _ => (h.each b List.mem_cons_self).1⟩
  obtain ⟨x, hmoved, hgo⟩ := (advance_steps u maxRecursions).complete hlen hon h.live h.drop_eq hstep
  obtain ⟨w, hw, hahead⟩ := h.next (u := u) hmoved
  refine ⟨w, ?_, hahead⟩
  rw [Value.advance, if_neg hon.valid, if_neg h.live]
  exact hgo w hw

/-- What the iterator stands on, of an item with this head. -/
theorem head {head body : Bytes} {major arg : Nat} (h : Ahead buf ((head ++ body) :: items) rest v)
    (hh : Cbor.IsHead major arg head) (hm : major < 8) : ∃ info argument, On v major info argument ∧
      info ≤ 27 ∧ head.length = 1 + argument.length ∧ argumentOf info argument = arg := by
  obtain ⟨m, info, argument, hon⟩ := h.on (List.cons_ne_nil _ items)
  have hdrop := h.drop_eq
  rw [List.append_assoc] at hdrop
  obtain ⟨rfl, hi, hlen, harg⟩ := hon.of_isHead hm hh hdrop
  exact ⟨info, argument, hon, hi, hlen, harg⟩

/-- The argument of a head that is neither a boolean nor of indefinite length. -/
theorem extract {head body : Bytes} {major arg : Nat} (h : Ahead buf ((head ++ body) :: items) rest v)
    (hh : Cbor.IsHead major arg head) (hm : major < 7) : ∃ x, v.extract u = .ok x ∧ x.toNat = arg := by
  obtain ⟨info, argument, hon, hi, -, harg⟩ := h.head hh (by omega)
  have hpos : v.pos < 2 ^ 31 := lt_of_le_of_lt h.inside h.short
  obtain ⟨x, hx, hvalue⟩ := extract_on (u := u) hon hi hpos
  refine ⟨x, hx, ?_⟩
  rw [← harg]
  apply hvalue
  omega

theorem unsigned {head : Bytes} {n : Nat} (h : Ahead buf (head :: items) rest v)
    (hh : Cbor.IsHead 0 n head) : v.isUnsignedInteger = true ∧ ∃ x, v.extract u = .ok x ∧ x.toNat = n := by
  rw [← List.append_nil head] at h
  refine ⟨?_, h.extract hh (by decide)⟩
  obtain ⟨info, argument, hon, -⟩ := h.head hh (by decide)
  have hnegative : v.flags.negativeInteger = false :=
    (congrArg (fun v : Value => v.flags.negativeInteger) hon.self).symm
  rw [isUnsignedInteger, hnegative, hon.ty]
  rfl

/-- A float or a double, of the width that its `info` says. -/
theorem wide {argument : Bytes} {k : Nat} (hk : k = 2 ∨ k = 3) (hlen : argument.length = 2 ^ k)
    (h : Ahead buf ((Cbor.initial 7 (24 + k) :: argument) :: items) rest v) :
    v.ty = Cbor.initial 7 (24 + k) ∧ ∃ x, v.extract u = .ok x ∧ x.toNat = beNat argument := by
  obtain ⟨m, info, read, hon⟩ := h.on (List.cons_ne_nil _ items)
  have hbound := beNat_lt argument
  rw [hlen] at hbound
  have hhead : Cbor.IsHead 7 (beNat argument) (Cbor.initial 7 (24 + k) :: argument) := by
    have hlong := @Cbor.IsHead.long 7 (beNat argument) k (by omega) hbound
    rwa [← hlen, beBytes_beNat] at hlong
  obtain ⟨rfl, hi, -, harg⟩ := hon.of_isHead (by decide) hhead h.drop_eq
  have hdrop := h.drop_eq
  rw [List.cons_append] at hdrop
  obtain ⟨-, rfl⟩ := hon.initial_eq (by decide) (by omega) hdrop
  have hpos : v.pos < 2 ^ 31 := lt_of_le_of_lt h.inside h.short
  obtain ⟨x, hx, hvalue⟩ := extract_on (u := u) hon hi hpos
  refine ⟨?_, x, hx, ?_⟩
  · rw [hon.ty]
    rcases hk with rfl | rfl
    · rfl
    · rfl
  · rw [← harg]
    apply hvalue
    omega

theorem text_iff {head body : Bytes} {major arg : Nat} (h : Ahead buf ((head ++ body) :: items) rest v)
    (hh : Cbor.IsHead major arg head) (hm : major < 8) : v.isTextString = true ↔ major = 3 := by
  obtain ⟨info, argument, hon, -⟩ := h.head hh hm
  rw [isTextString, decide_eq_true_eq]
  exact hon.ty_iff (k := 3) (by decide) (by decide)

theorem map_iff {head body : Bytes} {major arg : Nat} (h : Ahead buf ((head ++ body) :: items) rest v)
    (hh : Cbor.IsHead major arg head) (hm : major < 8) : v.isMap = true ↔ major = 5 := by
  obtain ⟨info, argument, hon, -⟩ := h.head hh hm
  rw [isMap, decide_eq_true_eq]
  exact hon.ty_iff (k := 5) (by decide) (by decide)

theorem bytes_iff {head body : Bytes} {major arg : Nat} (h : Ahead buf ((head ++ body) :: items) rest v)
    (hh : Cbor.IsHead major arg head) (hm : major < 8) : v.isByteString = true ↔ major = 2 := by
  obtain ⟨info, argument, hon, -⟩ := h.head hh hm
  rw [isByteString, decide_eq_true_eq]
  exact hon.ty_iff (k := 2) (by decide) (by decide)

/-- A string is walked over in one chunk, which is copied if there is room for it. -/
theorem walk {head body : Bytes} {major : Nat} (hm : major = 2 ∨ major = 3)
    (h : Ahead buf ((head ++ body) :: items) rest v) (hh : Cbor.IsHead major body.length head) (buflen : Nat) :
    ∃ w, v.iterateString u buflen = (if body.length ≤ buflen then [(0, body)] else [],
        .ok (⟨body.length, decide (body.length ≤ buflen), decide (body.length < buflen)⟩, w)) ∧
      Ahead buf items rest w := by
  obtain ⟨info, argument, hon, hi, -⟩ := h.head hh (by omega)
  have hlen : v.buf.length < 2 ^ 31 := by
    rw [h.buf_eq]
    exact h.short
  have hdrop := h.drop_eq
  rw [List.append_assoc] at hdrop
  obtain ⟨x, hmoved, hwalk⟩ := iterateString_definite (u := u) hon hm hi hlen buflen hh hdrop
  obtain ⟨w, hw, hahead⟩ := h.next (u := u) hmoved
  refine ⟨w, ?_, hahead⟩
  rw [hwalk, hw]
  rfl

theorem iterate {head body : Bytes} (h : Ahead buf ((head ++ body) :: items) rest v)
    (hh : Cbor.IsHead 3 body.length head) (buflen : Nat) :
    ∃ w, v.iterateString u buflen = (if body.length ≤ buflen then [(0, body)] else [],
        .ok (⟨body.length, decide (body.length ≤ buflen), decide (body.length < buflen)⟩, w)) ∧
      Ahead buf items rest w :=
  walk (.inr rfl) h hh buflen

theorem copyOf {head body : Bytes} {major : Nat} (hm : major = 2 ∨ major = 3)
    (h : Ahead buf ((head ++ body) :: items) rest v) (hh : Cbor.IsHead major body.length head) (buflen : Nat) :
    v.copyString u buflen = (if body.length ≤ buflen then [(0, body)] else [],
      .ok ⟨body.length, decide (body.length ≤ buflen), decide (body.length < buflen)⟩) := by
  obtain ⟨w, hw, -⟩ := h.walk (u := u) hm hh buflen
  rw [Value.copyString, hw]
  rfl

theorem copyString {head body : Bytes} (h : Ahead buf ((head ++ body) :: items) rest v)
    (hh : Cbor.IsHead 3 body.length head) (buflen : Nat) :
    v.copyString u buflen = (if body.length ≤ buflen then [(0, body)] else [],
      .ok ⟨body.length, decide (body.length ≤ buflen), decide (body.length < buflen)⟩) :=
  copyOf (.inr rfl) h hh buflen

theorem lengthKnown {head body : Bytes} {major arg : Nat} (h : Ahead buf ((head ++ body) :: items) rest v)
    (hh : Cbor.IsHead major arg head) (hm : major < 8) : v.isLengthKnown = true := by
  obtain ⟨info, argument, hon, hi, -⟩ := h.head hh hm
  have hunknown : decide (info = 31) = false := by
    rw [decide_eq_false_iff_not]
    omega
  rw [isLengthKnown, hon.unknownLength, hunknown]
  rfl

theorem stringLength {head body : Bytes} (h : Ahead buf ((head ++ body) :: items) rest v)
    (hh : Cbor.IsHead 3 body.length head) : v.stringLength u = .ok body.length := by
  have hmax := u.le_max
  have hle := h.item_le
  have hshort := h.short
  rw [List.length_append] at hle
  have htext : v.isTextString = true := (h.text_iff hh (by decide)).mpr rfl
  obtain ⟨x, hx, hvalue⟩ := h.extract (u := u) hh (by decide)
  have hfrom : u.tryFrom body.length = some body.length := u.tryFrom_of_lt (by omega)
  simp only [Value.stringLength, htext, h.lengthKnown hh (by decide), Bool.not_true, Bool.false_and,
    Bool.false_eq_true, if_false, hx, bind, Except.bind, hvalue, hfrom]
  rfl

theorem mapLength {head body : Bytes} {n : Nat} (h : Ahead buf ((head ++ body) :: items) rest v)
    (hh : Cbor.IsHead 5 n head) (hn : n < 2 ^ 32) : v.mapLength u = .ok n := by
  have hmap : v.isMap = true := (h.map_iff hh (by decide)).mpr rfl
  obtain ⟨x, hx, hvalue⟩ := h.extract (u := u) hh (by decide)
  have hfrom : u.tryFrom n = some n := u.tryFrom_of_lt hn
  simp only [Value.mapLength, hmap, h.lengthKnown hh (by decide), Bool.not_true, Bool.false_eq_true,
    if_false, hx, bind, Except.bind, hvalue, hfrom]
  rfl

/-- Inside a map its items are ahead, and behind them what follows the map. -/
theorem enter {head : Bytes} {inner : List Bytes} {n : Nat}
    (h : Ahead buf ((head ++ inner.flatten) :: items) rest v) (hh : Cbor.IsHead 5 n head)
    (hcount : inner.length = 2 * n)
    (heach : ∀ b ∈ inner, Cbor.Item maxRecursions b ∧ Untagged b) :
    ∃ r, v.enterContainer u = .ok r ∧ Ahead buf inner (items.flatten ++ rest) r := by
  obtain ⟨info, argument, hon, hi, hlen, harg⟩ := h.head hh (by decide)
  have hshort : v.buf.length < 2 ^ 31 := by
    rw [h.buf_eq]
    exact h.short
  have hle := h.item_le
  rw [List.length_append] at hle
  have hafter : v.buf.drop (v.pos + (1 + argument.length)) = inner.flatten ++ (items.flatten ++ rest) := by
    have hdrop := h.drop_eq
    rw [List.append_assoc] at hdrop
    rw [← hlen]
    exact drop_add_of_append hdrop
  have hcontents : Contents maxRecursions v 5 info argument inner (items.flatten ++ rest) := by
    refine ⟨fun b hb => (heach b hb).1, hafter, fun _ => ?_, fun h31 => ?_, fun h31 => ?_⟩
    · rw [harg]
      exact hcount
    · omega
    · omega
  obtain ⟨r, hr⟩ := enter_complete (u := u) hon (.inr rfl) hshort hcontents
  refine ⟨r, hr, ?_⟩
  rw [h.buf_eq] at hafter
  rcases entered_cases maxRecursions hon (.inr rfl) hshort hr with
    ⟨hthrough, rest', hnone⟩ | ⟨remaining, hinside, hcounting⟩
  · have hzero := hnone.counted hi
    rw [harg] at hzero
    obtain rfl : inner = [] := by
      rw [List.eq_nil_iff_length_eq_zero, hcount]
      exact hzero.symm
    have hpos := hthrough.pos
    refine ⟨hthrough.buf.trans h.buf_eq, h.short, by omega, by rw [hpos]; exact hafter, nofun,
      by rw [hthrough.remaining]; rfl, fun hne => absurd rfl hne, fun _ => ⟨hthrough.ty, ?_⟩⟩
    rw [hthrough.unknownLength, decide_eq_false_iff_not]
    omega
  · have hpos := hinside.pos
    have hremaining := (hcounting.counted hi).2
    rw [harg] at hremaining
    refine ⟨hinside.buf.trans h.buf_eq, h.short, by omega, by rw [hpos]; exact hafter, heach, ?_,
      fun _ => hinside.on, ?_⟩
    · rw [hinside.remaining, hremaining, hcount]
      rfl
    · rintro rfl
      apply absurd hcounting.live
      rw [not_not, ← UInt32.toNat_inj, hremaining]
      exact hcount.symm

/-- A map is left from behind its last item. -/
theorem leave {head body rest' : Bytes} {n : Nat} {r : Value}
    (h : Ahead buf ((head ++ body) :: items) rest v) (hh : Cbor.IsHead 5 n head)
    (hr : Ahead buf [] rest' r) (hrest : rest' = items.flatten ++ rest) :
    ∃ w, v.leaveContainer u r = (w, .ok ()) ∧ Ahead buf items rest w := by
  obtain ⟨info, argument, hon, hi, -⟩ := h.head hh (by decide)
  obtain ⟨hty, hunknown⟩ := hr.ended rfl
  have hle := h.item_le
  have hshort := h.short
  have hpos : r.pos = v.pos + (head ++ body).length := by
    have hdrop := congrArg List.length h.drop_eq
    have hbehind := congrArg List.length hr.drop
    have hinside := hr.inside
    rw [h.buf_eq, List.length_drop, List.length_append, ← hrest] at hdrop
    rw [List.length_drop, List.flatten_nil, List.nil_append] at hbehind
    omega
  have hzero : r.remaining = 0 := UInt32.toNat_inj.mp hr.remaining
  have hthrough : Through v r info (head ++ body).length := by
    refine ⟨hzero, hty, ?_, hpos, hr.buf_eq.trans h.buf_eq.symm⟩
    rw [hunknown, eq_comm, decide_eq_false_iff_not]
    omega
  obtain ⟨w, hw, hahead⟩ := h.next (u := u) (moved_self v (head ++ body).length)
  refine ⟨w, ?_, hahead⟩
  rw [leave_eq hon (.inr rfl) hthrough (by omega), if_neg (by omega)]
  exact hw

/-- Reading the head again changes nothing of what is ahead. -/
theorem reparse (h : Ahead buf (b :: items) rest v) :
    ∃ w, (v.preparseValue u).get = .ok w ∧ Ahead buf (b :: items) rest w := by
  obtain ⟨major, info, argument, hon⟩ := h.on (List.cons_ne_nil b items)
  have hpos : v.pos < 2 ^ 31 := lt_of_le_of_lt h.inside h.short
  obtain ⟨w, hw⟩ := preparse_of_head (u := u) hpos hon.head
  obtain ⟨hwpos, hkept, hwon⟩ := preparse_on hpos hw
  refine ⟨w, by rw [hw]; rfl, hkept.buf.trans h.buf_eq, h.short, ?_, ?_, h.each, ?_, fun _ => hwon, nofun⟩
  · rw [hwpos]
    exact h.inside
  · rw [hwpos]
    exact h.drop
  · rw [hkept.remaining]
    exact h.remaining

theorem skipTag (h : Ahead buf (b :: items) rest v) : (v.skipTag u).get = .ok v := by
  have hno : v.isTag = false := by
    rw [isTag, decide_eq_false_iff_not]
    exact h.not_tag
  rw [Value.skipTag, skipTagLoop, hno]
  rfl

/-- The string that is taken of an item equals its body and nothing else. -/
theorem stringOf {head body : Bytes} {major : Nat} (hm : major = 2 ∨ major = 3)
    (h : Ahead buf ((head ++ body) :: items) rest v) (hh : Cbor.IsHead major body.length head) :
    v.string u = .ok ⟨v, body.length⟩ ∧
      ∀ bytes, (CborString.mk v body.length).eqBytes u bytes = .ok (decide (bytes = body)) := by
  have hmax := u.le_max
  have hle := h.item_le
  have hshort := h.short
  rw [List.length_append] at hle
  have hkind : (!v.isTextString && !v.isByteString) = false := by
    rcases hm with rfl | rfl
    · rw [(h.bytes_iff hh (by decide)).mpr rfl]
      exact Bool.and_false _
    · rw [(h.text_iff hh (by decide)).mpr rfl]
      rfl
  have hcopy := h.copyOf (u := u) hm hh u.max
  rw [if_pos (by omega)] at hcopy
  constructor
  · rw [Value.string, hkind, hcopy]
    rfl
  · intro bytes
    rw [CborString.eqBytes, CborString.chunks, hcopy]
    by_cases hlen : bytes.length = body.length
    · have hslice : bytes.slice? 0 body.length = some bytes := by
        rw [slice?_of_le (by omega), slice_of_length hlen]
      rw [if_neg (not_not.mpr hlen)]
      simp only [List.map_cons, List.map_nil, CborString.chunksAre, hslice, bind, Except.bind]
      exact congrArg _ (Bool.and_true _)
    · have hne : bytes ≠ body := fun heq => hlen (congrArg List.length heq)
      rw [if_pos hlen, decide_eq_false hne]

theorem string {head body : Bytes} (h : Ahead buf ((head ++ body) :: items) rest v)
    (hh : Cbor.IsHead 3 body.length head) :
    v.string u = .ok ⟨v, body.length⟩ ∧
      ∀ bytes, (CborString.mk v body.length).eqBytes u bytes = .ok (decide (bytes = body)) :=
  stringOf (.inr rfl) h hh

/-! ### Finding a key -/

/-- The items of a map: texts, and an item behind each. -/
def pairItems (pairs : List (Bytes × Bytes)) : List Bytes :=
  pairs.flatMap fun pair => [(Cbor.Scalar.text pair.1).encode, pair.2]

theorem pairItems_cons (pair : Bytes × Bytes) (pairs : List (Bytes × Bytes)) :
    pairItems (pair :: pairs) = (Cbor.Scalar.text pair.1).encode :: pair.2 :: pairItems pairs := rfl

theorem length_pairItems (pairs : List (Bytes × Bytes)) : (pairItems pairs).length = 2 * pairs.length := by
  induction pairs with
  | nil => rfl
  | cons pair pairs ih =>
    rw [pairItems_cons, List.length_cons, List.length_cons, ih, List.length_cons]
    omega

theorem text_isHead {text : Bytes} (h : Ahead buf ((Cbor.Scalar.text text).encode :: items) rest v) :
    Cbor.IsHead 3 text.length (Cbor.preferredHead 3 text.length) := by
  have hle := h.item_le
  have hshort := h.short
  rw [Cbor.Scalar.encode, List.length_append] at hle
  exact Cbor.isHead_preferredHead 3 (by omega)

theorem chunksEqual_one (key body : Bytes) :
    chunksEqual key (if body.length ≤ key.length then [(0, body)] else []) =
      .ok (decide (body.length ≤ key.length → key.take body.length = body)) := by
  by_cases hfit : body.length ≤ key.length
  · have hslice : key.slice? 0 body.length = some (key.take body.length) := by
      rw [slice?_of_le (by omega), slice, List.drop_zero]
    rw [if_pos hfit, chunksEqual, hslice]
    simp [chunksEqual, bind, Except.bind, hfit]
    rfl
  · rw [if_neg hfit, chunksEqual]
    simp [hfit]

/-- Only the key itself is taken for the key. -/
theorem matchKey {text k : Bytes} (h : Ahead buf ((Cbor.Scalar.text text).encode :: b :: items) rest v) :
    ∃ w, v.matchKey u k = .ok (w, decide (text = k)) ∧ Ahead buf (b :: items) rest w := by
  have hh := h.text_isHead
  have htext : v.isTextString = true := (h.text_iff hh (by decide)).mpr rfl
  obtain ⟨next, hnext, hahead⟩ := h.iterate (u := u) hh k.length
  have hsame : (decide (text.length ≤ k.length → k.take text.length = text) &&
      decide (text.length ≤ k.length) && decide (text.length = k.length)) = decide (text = k) := by
    rw [Bool.eq_iff_iff]
    simp only [Bool.and_eq_true, decide_eq_true_eq]
    constructor
    · rintro ⟨⟨htake, hle⟩, hlen⟩
      rw [← htake hle, hlen, List.take_length]
    · rintro rfl
      exact ⟨⟨fun _ => List.take_length, Nat.le_refl _⟩, rfl⟩
  rw [Value.matchKey, htext, hnext]
  simp only [if_true, chunksEqual_one, bind, Except.bind, hsame, decide_eq_true_eq]
  by_cases hkey : text = k
  · obtain ⟨w, hw, hwahead⟩ := hahead.reparse (u := u)
    refine ⟨w, ?_, hwahead⟩
    rw [if_pos hkey, hw, decide_eq_true hkey]
    rfl
  · refine ⟨next, ?_, hahead⟩
    rw [if_neg hkey, decide_eq_false hkey]
    rfl

/-- The search stops on the value of the first pair that has the key. -/
theorem findValue {before after : List (Bytes × Bytes)} {key value : Bytes} {fuel : Nat}
    (h : Ahead buf (pairItems (before ++ (key, value) :: after)) rest v)
    (hfirst : key ∉ before.map Prod.fst) (hfuel : before.length < fuel) :
    ∃ w, findValue u key fuel v = .ok w ∧ Ahead buf (value :: pairItems after) rest w := by
  induction before generalizing v fuel with
  | nil =>
    obtain ⟨fuel, rfl⟩ := Nat.exists_eq_add_one.mpr hfuel
    rw [List.nil_append, pairItems_cons] at h
    have hopen : v.atEnd = false := decide_eq_false h.live
    obtain ⟨w, hw, hahead⟩ := h.matchKey (u := u) (k := key)
    refine ⟨w, ?_, hahead⟩
    rw [Value.findValue, hopen]
    simp only [Bool.false_eq_true, if_false, bind, Except.bind, h.skipTag, hw, decide_true, if_true]
    rfl
  | cons pair before ih =>
    obtain ⟨fuel, rfl⟩ := Nat.exists_eq_add_one.mpr (Nat.zero_lt_of_lt hfuel)
    rw [List.map_cons, List.mem_cons, not_or] at hfirst
    rw [List.cons_append, pairItems_cons] at h
    have hopen : v.atEnd = false := decide_eq_false h.live
    have hother : decide (pair.1 = key) = false := decide_eq_false fun heq => hfirst.1 heq.symm
    obtain ⟨x, hx, hxahead⟩ := h.matchKey (u := u) (k := key)
    obtain ⟨y, hy, hyahead⟩ := hxahead.advance (u := u)
    have hgo : (x.advance u).get = .ok y := by
      rw [hy]
      rfl
    obtain ⟨w, hw, hahead⟩ := ih hyahead hfirst.2 (Nat.lt_of_succ_lt_succ hfuel)
    refine ⟨w, ?_, hahead⟩
    rw [Value.findValue, hopen]
    simp only [Bool.false_eq_true, if_false, bind, Except.bind, h.skipTag, hx, hother, hxahead.skipTag, hgo]
    exact hw

theorem mapFindValue {before after : List (Bytes × Bytes)} {key value : Bytes} {n : Nat} {head : Bytes}
    (h : Ahead buf ((head ++ (pairItems (before ++ (key, value) :: after)).flatten) :: items) rest v)
    (hh : Cbor.IsHead 5 n head) (hcount : (before ++ (key, value) :: after).length = n)
    (heach : ∀ b ∈ pairItems (before ++ (key, value) :: after), Cbor.Item maxRecursions b ∧ Untagged b)
    (hfirst : key ∉ before.map Prod.fst) :
    ∃ w, v.mapFindValue u key = .ok w ∧
      Ahead buf (value :: pairItems after) (items.flatten ++ rest) w := by
  have hmap : v.isMap = true := (h.map_iff hh (by decide)).mpr rfl
  obtain ⟨r, hr, hahead⟩ := h.enter (u := u) hh (by rw [length_pairItems, hcount]) heach
  have hle := hahead.length_le
  rw [length_pairItems, List.length_append] at hle
  have hfuel : before.length < v.buf.length + 1 := by
    rw [h.buf_eq]
    omega
  obtain ⟨w, hw, hwahead⟩ := hahead.findValue (u := u) hfirst hfuel
  refine ⟨w, ?_, hwahead⟩
  rw [Value.mapFindValue, hmap]
  simp only [Bool.not_true, Bool.false_eq_true, if_false, bind, Except.bind, hr]
  exact hw

end

/-- The whole buffer is one item. -/
theorem parse {u : Usize} {buf : Bytes} (hshort : buf.length < 2 ^ 31) (hitem : Cbor.Item maxRecursions buf)
    (huntagged : Untagged buf) : ∃ v, Value.parse u buf = .ok v ∧ Ahead buf [buf] [] v := by
  obtain ⟨v, hv⟩ := parse_item (u := u) hitem (List.append_nil buf).symm
  have hfirst := parse_first hv
  refine ⟨v, hv, hfirst.buf, hshort, ?_, ?_, ?_, ?_, fun _ => hfirst.on, nofun⟩
  · rw [hfirst.pos]
    exact Nat.zero_le _
  · rw [hfirst.pos]
    simp
  · intro b hb
    rw [List.mem_singleton] at hb
    subst hb
    exact ⟨hitem, huntagged⟩
  · rw [hfirst.remaining]
    rfl

end Ahead

end Bristlemouth.Parser
