import Bristlemouth.Parser.Strings

/-!
# The reader and the grammar

`advance` steps over an item exactly if there is a well-formed one that nests no deeper than the
reader follows. The induction is on the nesting; inside a container one round of the loop steps over
an item or over a tag.
-/

set_option autoImplicit false

namespace Bristlemouth.Parser

open Bytes Config

theorem initial_injective {m k i j : Nat} (hm : m < 8) (hk : k < 8) (hi : i < 32) (hj : j < 32)
    (h : Cbor.initial m i = Cbor.initial k j) : m = k ∧ i = j := by
  have hnat := congrArg UInt8.toNat h
  change (32 * m + i) % 256 = (32 * k + j) % 256 at hnat
  omega

theorem HeadAt.initial {tail argument : Bytes} {major info : Nat} (h : HeadAt tail major info argument) :
    ∃ rest, tail = Cbor.initial major info :: rest := by
  cases h with
  | definite hm hi hlen htail hwide => exact ⟨_, htail⟩
  | unbounded hm hm5 htail => exact ⟨_, htail⟩

theorem On.initial_eq {v : Value} {major info m i : Nat} {argument rest : Bytes}
    (h : On v major info argument) (hm : m < 8) (hi : i < 32)
    (hdrop : v.buf.drop v.pos = Cbor.initial m i :: rest) : major = m ∧ info = i := by
  obtain ⟨hmajor, hinfo, -⟩ := h.head.bounds
  obtain ⟨rest', htail⟩ := h.head.initial
  exact initial_injective hmajor hm hinfo hi (List.cons.inj (htail.symm.trans hdrop)).1

/-- The iterator is on the definite head that the grammar has there. -/
theorem On.of_isHead {v : Value} {major info m arg : Nat} {argument h rest : Bytes}
    (hon : On v major info argument) (hm : m < 8) (hh : Cbor.IsHead m arg h)
    (hdrop : v.buf.drop v.pos = h ++ rest) :
    major = m ∧ info ≤ 27 ∧ h.length = 1 + argument.length ∧ argumentOf info argument = arg := by
  obtain ⟨i, bytes, hi, hbytes, rfl, harg⟩ := argument_of_isHead hh
  obtain ⟨rfl, rfl⟩ := hon.initial_eq hm (by omega) hdrop
  cases hon.head with
  | unbounded hm2 hm5 htail => omega
  | definite hm8 hi27 hargument htail hwide =>
    have htails := (List.cons.inj (htail.symm.trans hdrop)).2
    have hsame := List.append_inj_left htails (hargument.trans hbytes.symm)
    rw [hsame]
    exact ⟨rfl, hi, Nat.add_comm .., harg⟩

/-- What one step of the loop takes: an item, or the head of a tag before one. -/
structure StepOf (d : Nat) (v : Value) (b : Bytes) : Prop where
  tagged : v.ty = tag → ∃ arg, Cbor.IsHead 6 arg b
  item : v.ty ≠ tag → Cbor.Item d b

/-- An iterator that left its container `n` bytes on from `v`. -/
structure Closed (v w : Value) (n : Nat) : Prop where
  remaining : w.remaining = 0
  ty : w.ty = invalid
  unknownLength : w.flags.unknownLength = decide (v.remaining = unbounded)
  pos : w.pos = v.pos + n
  buf : w.buf = v.buf

/-- The items from `v` to the end of its container. Behind a count that ran out there is nothing more,
behind any other there is a break, and not in the middle of a pair. -/
structure Filled (d : Nat) (v : Value) (items : List Bytes) (rest : Bytes) : Prop where
  each : ∀ b ∈ items, Cbor.Item d b
  drop : v.buf.drop v.pos = items.flatten ++ rest
  counted : v.remaining ≠ unbounded → items.length = v.remaining.toNat
  broken : v.remaining = unbounded → rest[0]? = some breakByte
  paired : v.remaining = unbounded → v.flags.containerIsMap = true →
    (items.length + v.flags.nextIsMapKey.toNat) % 2 = 0

/-- From an item to the next of its container, `n` bytes on. -/
structure Onward (v x : Value) (n : Nat) : Prop where
  on : ∃ major info argument, On x major info argument
  pos : x.pos = v.pos + n
  buf : x.buf = v.buf
  live : x.remaining ≠ 0
  opened : x.remaining = unbounded ↔ v.remaining = unbounded
  counted : v.remaining ≠ unbounded →
    v.remaining.toNat = x.remaining.toNat + if v.ty = tag then 0 else 1
  isMap : x.flags.containerIsMap = v.flags.containerIsMap
  nextIsMapKey : x.flags.nextIsMapKey = if v.ty = tag then v.flags.nextIsMapKey else !v.flags.nextIsMapKey

namespace Value

section
variable {u : Usize} {v w : Value} {major info d : Nat} {argument : Bytes}

theorem andThen_eq_ok {c : Changed} {next : Value → Changed} (h : c.andThen next = (w, .ok ())) :
    ∃ x, c = (x, .ok ()) ∧ next x = (w, .ok ()) := by
  obtain ⟨x, result⟩ := c
  cases result with
  | error e => cases h
  | ok _ => exact ⟨x, rfl, h⟩

theorem untilEnd_ended (step : Value → Changed) {fuel : Nat} (hfuel : 0 < fuel) (hr : v.remaining = 0) :
    untilEnd step fuel v = (v, .ok ()) := by
  obtain ⟨fuel, rfl⟩ := Nat.exists_eq_add_one.mpr hfuel
  rw [untilEnd, if_pos]
  rw [atEnd, decide_eq_true_eq]
  exact hr

/-- The step of the loop takes what the grammar allows and nothing else. -/
structure Steps (u : Usize) (d : Nat) (step : Value → Changed) : Prop where
  sound : ∀ {v w : Value} {major info : Nat} {argument : Bytes}, v.buf.length < 2 ^ 31 →
    On v major info argument → v.remaining ≠ 0 → step v = (w, .ok ()) →
      ∃ b rest x, v.buf.drop v.pos = b ++ rest ∧ StepOf d v b ∧ Moved v x b.length ∧
        x.preparseNextValue u = (w, .ok ())
  complete : ∀ {v : Value} {major info : Nat} {argument b rest : Bytes}, v.buf.length < 2 ^ 31 →
    On v major info argument → v.remaining ≠ 0 → v.buf.drop v.pos = b ++ rest → StepOf d v b →
      ∃ x, Moved v x b.length ∧
        ∀ w, x.preparseNextValue u = (w, .ok ()) → step v = (w, .ok ())

theorem remaining_sub_one {r : UInt32} (h0 : r ≠ 0) : (r - 1).toNat + 1 = r.toNat := by
  have hpos : 0 < r.toNat := by
    rw [Nat.pos_iff_ne_zero]
    intro h
    exact h0 (UInt32.toNat_inj.mp h)
  have hle : (1 : UInt32) ≤ r := by
    rw [UInt32.le_iff_toNat_le]
    exact hpos
  have hone : (1 : UInt32).toNat = 1 := rfl
  rw [UInt32.toNat_sub_of_le _ _ hle, hone]
  omega

/-- Where a step behind an item leads, told from the item. -/
theorem next_from {y x : Value} {n : Nat} (hr : v.remaining ≠ 0) (hmoved : Moved v y n)
    (h : Next y x) : Onward v x n ∨ v.ty ≠ tag ∧ ∃ unknown, Ended y x unknown ∧
      (v.remaining = 1 ∧ unknown = false ∨
        v.remaining = unbounded ∧ unknown = true ∧ v.buf[v.pos + n]? = some breakByte ∧
          (v.flags.containerIsMap = true → v.flags.nextIsMapKey = true)) := by
  have hbuf := hmoved.buf
  have hpos := hmoved.pos
  cases h with
  | ended hty hone hv =>
    rw [hmoved.ty] at hty
    rw [hmoved.remaining] at hone
    exact .inr ⟨hty, false, hv, .inl ⟨hone, rfl⟩⟩
  | broke hty hopen hbyte hkey hv =>
    rw [hmoved.ty] at hty
    rw [hmoved.remaining] at hopen
    rw [hbuf, hpos] at hbyte
    rw [hmoved.isMap, hmoved.nextIsMapKey] at hkey
    exact .inr ⟨hty, true, hv, .inr ⟨hopen, rfl, hbyte, hkey⟩⟩
  | item hone hon hxpos hxbuf hremaining hmap hkey =>
    left
    rw [hmoved.ty, hmoved.remaining] at hone hremaining
    rw [hmoved.ty, hmoved.nextIsMapKey] at hkey
    by_cases hsame : v.ty = tag ∨ v.remaining = unbounded
    · rw [if_pos hsame] at hremaining
      refine ⟨hon, hxpos.trans hpos, hxbuf.trans hbuf, hremaining ▸ hr, by rw [hremaining], ?_,
        hmap.trans hmoved.isMap, hkey⟩
      intro hne
      rw [if_pos (hsame.resolve_right hne), hremaining, Nat.add_zero]
    · rw [if_neg hsame] at hremaining
      obtain ⟨hty, hne⟩ := not_or.mp hsame
      refine ⟨hon, hxpos.trans hpos, hxbuf.trans hbuf, ?_, ?_, ?_, hmap.trans hmoved.isMap, hkey⟩
      · intro hzero
        exact hone hty (eq_add_one_of_sub (hremaining ▸ hzero))
      · refine ⟨fun hwrap => ?_, fun hun => absurd hun hne⟩
        exact absurd ((eq_add_one_of_sub (hremaining ▸ hwrap)).trans unbounded_add_one) hr
      · intro _
        rw [if_neg hty, hremaining, remaining_sub_one hr]

/-- There is an item wherever the container goes on. -/
theorem filled_ne_nil {items : List Bytes} {rest : Bytes} (hon : On v major info argument)
    (hr : v.remaining ≠ 0) (h : Filled d v items rest) : items ≠ [] := by
  rintro rfl
  by_cases hopen : v.remaining = unbounded
  · have hbreak := h.broken hopen
    have hsame : v.buf.drop v.pos = rest := h.drop
    exact absurd (hsame ▸ hbreak) hon.head.not_break
  · have hcount : 0 = v.remaining.toNat := h.counted hopen
    exact absurd (UInt32.toNat_inj.mp hcount.symm) hr

theorem parity_succ (n : Nat) (key : Bool) : (n + 1 + key.toNat) % 2 = (n + (!key).toNat) % 2 := by
  cases key with
  | false => rfl
  | true =>
    simp only [Bool.not_true, Bool.toNat_true, Bool.toNat_false]
    omega

/-- The items from `v` on are the one it is on and those from the next on. -/
theorem filled_cons_iff {x : Value} {items : List Bytes} {b rest : Bytes} (honward : Onward v x b.length)
    (hty : v.ty ≠ tag) (hdrop : v.buf.drop v.pos = b ++ x.buf.drop x.pos) :
    Filled d v (b :: items) rest ↔ Cbor.Item d b ∧ Filled d x items rest := by
  have hcounted := honward.counted
  have hkey := honward.nextIsMapKey
  rw [if_neg hty] at hcounted hkey
  have hparity : ((b :: items).length + v.flags.nextIsMapKey.toNat) % 2 =
      (items.length + x.flags.nextIsMapKey.toNat) % 2 := by
    rw [List.length_cons, hkey, parity_succ]
  constructor
  · intro h
    refine ⟨h.each b List.mem_cons_self, fun c hc => h.each c (List.mem_cons_of_mem b hc), ?_, ?_,
      fun hun => h.broken (honward.opened.mp hun), ?_⟩
    · apply @List.append_cancel_left _ b
      rw [← hdrop, h.drop, List.flatten_cons, List.append_assoc]
    · intro hne
      have hopen := mt honward.opened.mpr hne
      have hcount := h.counted hopen
      have hone := hcounted hopen
      rw [List.length_cons] at hcount
      omega
    · intro hun hmap
      rw [← hparity]
      exact h.paired (honward.opened.mp hun) (honward.isMap.symm.trans hmap)
  · rintro ⟨hb, h⟩
    refine ⟨?_, ?_, ?_, fun hun => h.broken (honward.opened.mpr hun), ?_⟩
    · intro c hc
      rcases List.mem_cons.mp hc with rfl | hmem
      · exact hb
      · exact h.each c hmem
    · rw [hdrop, h.drop, List.flatten_cons, List.append_assoc]
    · intro hne
      have hcount := h.counted (mt honward.opened.mp hne)
      have hone := hcounted hne
      rw [List.length_cons]
      omega
    · intro hun hmap
      rw [hparity]
      exact h.paired (honward.opened.mpr hun) (honward.isMap.trans hmap)

/-- A tag belongs to the item behind it. -/
theorem filled_tagged_iff {x : Value} {items : List Bytes} {h c rest : Bytes} {arg : Nat}
    (honward : Onward v x h.length) (hty : v.ty = tag) (hdrop : v.buf.drop v.pos = h ++ x.buf.drop x.pos)
    (hh : Cbor.IsHead 6 arg h) (hc : Cbor.Item d c) :
    Filled d v ((h ++ c) :: items) rest ↔ Filled d x (c :: items) rest := by
  have hcounted := honward.counted
  have hkey := honward.nextIsMapKey
  rw [if_pos hty] at hcounted hkey
  constructor
  · intro hf
    refine ⟨?_, ?_, ?_, fun hun => hf.broken (honward.opened.mp hun), ?_⟩
    · intro b hb
      rcases List.mem_cons.mp hb with rfl | hmem
      · exact hc
      · exact hf.each b (List.mem_cons_of_mem _ hmem)
    · apply @List.append_cancel_left _ h
      rw [← hdrop, hf.drop]
      simp
    · intro hne
      have hopen := mt honward.opened.mpr hne
      rw [← Nat.add_zero x.remaining.toNat, ← hcounted hopen]
      exact hf.counted hopen
    · intro hun hmap
      rw [hkey]
      exact hf.paired (honward.opened.mp hun) (honward.isMap.symm.trans hmap)
  · intro hf
    refine ⟨?_, ?_, ?_, fun hun => hf.broken (honward.opened.mpr hun), ?_⟩
    · intro b hb
      rcases List.mem_cons.mp hb with rfl | hmem
      · exact .tagged hh hc
      · exact hf.each b (List.mem_cons_of_mem _ hmem)
    · rw [hdrop, hf.drop]
      simp
    · intro hne
      rw [hcounted hne, Nat.add_zero]
      exact hf.counted (mt honward.opened.mp hne)
    · intro hun hmap
      rw [← hkey]
      exact hf.paired (honward.opened.mpr hun) (honward.isMap.trans hmap)

theorem closed_onward {x : Value} {m n : Nat} (honward : Onward v x m) (h : Closed x w n) :
    Closed v w (m + n) where
  remaining := h.remaining
  ty := h.ty
  unknownLength := h.unknownLength.trans (decide_eq_decide.mpr honward.opened)
  pos := by rw [h.pos, honward.pos, Nat.add_assoc]
  buf := h.buf.trans honward.buf

/-- The last item of a container. -/
theorem filled_last_iff {b rest : Bytes} (hdrop : v.buf.drop v.pos = b ++ rest) :
    Filled d v [b] rest ↔ Cbor.Item d b ∧ (v.remaining = 1 ∨ v.remaining = unbounded ∧
      rest[0]? = some breakByte ∧ (v.flags.containerIsMap = true → v.flags.nextIsMapKey = true)) := by
  constructor
  · intro h
    refine ⟨h.each b (List.mem_singleton_self b), ?_⟩
    by_cases hopen : v.remaining = unbounded
    · refine .inr ⟨hopen, h.broken hopen, ?_⟩
      intro hmap
      have hpair := h.paired hopen hmap
      cases hkey : v.flags.nextIsMapKey with
      | true => rfl
      | false =>
        rw [hkey] at hpair
        simp at hpair
    · exact .inl (UInt32.toNat_inj.mp (h.counted hopen).symm)
  · rintro ⟨hb, hend⟩
    refine ⟨?_, by simpa using hdrop, ?_, ?_, ?_⟩
    · intro c hc
      rw [List.mem_singleton] at hc
      exact hc ▸ hb
    · intro hne
      rcases hend with hone | ⟨hopen, -⟩
      · rw [hone]
        rfl
      · exact absurd hopen hne
    · intro hun
      rcases hend with hone | ⟨-, hbreak, -⟩
      · exact absurd (hun.symm.trans hone) unbounded_ne_one
      · exact hbreak
    · intro hun hmap
      rcases hend with hone | ⟨-, -, hkey⟩
      · exact absurd (hun.symm.trans hone) unbounded_ne_one
      · rw [hkey hmap]
        simp

theorem untilEnd_sound {step : Value → Changed} (hstep : Steps u d step) {fuel : Nat}
    (hon : On v major info argument) (hr : v.remaining ≠ 0) (hlen : v.buf.length < 2 ^ 31)
    (h : untilEnd step fuel v = (w, .ok ())) :
    ∃ items rest, Filled d v items rest ∧ Closed v w items.flatten.length := by
  induction fuel generalizing v major info argument with
  | zero => cases h
  | succ fuel ih =>
    have hat : v.atEnd = false := by
      rw [atEnd, decide_eq_false_iff_not]
      exact hr
    rw [untilEnd, hat] at h
    obtain ⟨x, hx, hloop⟩ := andThen_eq_ok h
    obtain ⟨b, rest, y, hdrop, hb, hmoved, hnext⟩ := hstep.sound hlen hon hr hx
    have hlt := hon.pos_lt
    have hfit := length_drop_of_append (by omega) hdrop
    have hypos : y.pos < 2 ^ 31 := by
      rw [hmoved.pos]
      omega
    have hrest : v.buf.drop (v.pos + b.length) = rest := drop_add_of_append hdrop
    rcases next_from hr hmoved (next_sound hypos (hmoved.remaining ▸ hr) hnext) with
      honward | ⟨hty, unknown, hended, hend⟩
    · obtain ⟨major', info', argument', hon'⟩ := honward.on
      obtain ⟨items, rest', hfilled, hclosed⟩ := ih hon' honward.live (honward.buf ▸ hlen) hloop
      have hdrop' : v.buf.drop v.pos = b ++ x.buf.drop x.pos := by
        rw [hdrop, ← hrest, honward.buf, honward.pos]
      by_cases hty : v.ty = tag
      · obtain ⟨arg, hh⟩ := hb.tagged hty
        obtain ⟨c, items, rfl⟩ := List.exists_cons_of_ne_nil (filled_ne_nil hon' honward.live hfilled)
        refine ⟨(b ++ c) :: items, rest', ?_, ?_⟩
        · exact (filled_tagged_iff honward hty hdrop' hh (hfilled.each c List.mem_cons_self)).mpr hfilled
        · have hall := closed_onward honward hclosed
          rw [List.flatten_cons, List.length_append] at hall ⊢
          rw [List.length_append, Nat.add_assoc]
          exact hall
      · refine ⟨b :: items, rest', (filled_cons_iff honward hty hdrop').mpr ⟨hb.item hty, hfilled⟩, ?_⟩
        rw [List.flatten_cons, List.length_append]
        exact closed_onward honward hclosed
    · have hfuel : 0 < fuel := by
        cases fuel with
        | zero => cases hloop
        | succ fuel => exact Nat.succ_pos _
      rw [untilEnd_ended step hfuel hended.remaining] at hloop
      cases hloop
      have hbyte : v.buf[v.pos + b.length]? = rest[0]? := by
        rw [← hrest]
        simp
      have hclosed : ∀ n, n = b.length → unknown = decide (v.remaining = unbounded) → Closed v w n := by
        rintro n rfl hunknown
        exact ⟨hended.remaining, hended.ty, hended.unknownLength.trans hunknown,
          hended.pos.trans hmoved.pos, hended.buf.trans hmoved.buf⟩
      rcases hend with ⟨hone, rfl⟩ | ⟨hopen, rfl, hbreak, hkey⟩
      · refine ⟨[b], rest, (filled_last_iff hdrop).mpr ⟨hb.item hty, .inl hone⟩, hclosed _ (by simp) ?_⟩
        rw [hone]
        rfl
      · rw [hbyte] at hbreak
        refine ⟨[b], rest, (filled_last_iff hdrop).mpr ⟨hb.item hty, .inr ⟨hopen, hbreak, hkey⟩⟩,
          hclosed _ (by simp) ?_⟩
        rw [decide_eq_true hopen]

/-- The grammar's item, told by the head that is read. -/
inductive ItemOn (major info : Nat) (argument : Bytes) : Nat → Bytes → Prop
  | fixed {d : Nat} {b : Bytes} (hm : major < 2 ∨ major = 7) (hlen : b.length = 1 + argument.length) :
      ItemOn major info argument d b
  | string {d : Nat} {h body : Bytes} (hm : major = 2 ∨ major = 3) (hi : info ≤ 27)
      (hh : Cbor.IsHead major body.length h) : ItemOn major info argument d (h ++ body)
  | chunked {d : Nat} {bs : Bytes} (hm : major = 2 ∨ major = 3) (hi : info = 31)
      (hchunks : Cbor.Chunks major bs) :
      ItemOn major info argument d (Cbor.initial major 31 :: (bs ++ [Cbor.breakCode]))
  | container {d : Nat} {h : Bytes} {items : List Bytes} (hm : major = 4 ∨ major = 5) (hi : info ≤ 27)
      (hlen : h.length = 1 + argument.length)
      (hcount : items.length = Cbor.itemsPer major * argumentOf info argument)
      (hitems : ∀ b ∈ items, Cbor.Item d b) : ItemOn major info argument (d + 1) (h ++ items.flatten)
  | unbounded {d n : Nat} {items : List Bytes} (hm : major = 4 ∨ major = 5) (hi : info = 31)
      (hcount : items.length = Cbor.itemsPer major * n) (hitems : ∀ b ∈ items, Cbor.Item d b) :
      ItemOn major info argument (d + 1)
        (Cbor.initial major 31 :: (items.flatten ++ [Cbor.breakCode]))
  | tagged {d arg : Nat} {h c : Bytes} (hm : major = 6) (hh : Cbor.IsHead 6 arg h) (hc : Cbor.Item d c) :
      ItemOn major info argument d (h ++ c)

theorem itemOn_of_item {b rest : Bytes} (hon : On v major info argument) (hb : Cbor.Item d b)
    (hdrop : v.buf.drop v.pos = b ++ rest) : ItemOn major info argument d b := by
  cases hb with
  | integer hm hh =>
    obtain ⟨rfl, -, hlen, -⟩ := hon.of_isHead (by omega) hh hdrop
    exact .fixed (by omega) hlen
  | simple hh hwide =>
    obtain ⟨rfl, -, hlen, -⟩ := hon.of_isHead (by decide) hh hdrop
    exact .fixed (.inr rfl) hlen
  | string hm hh =>
    rw [List.append_assoc] at hdrop
    obtain ⟨rfl, hi, -, -⟩ := hon.of_isHead (by omega) hh hdrop
    exact .string hm hi hh
  | chunked hm hchunks =>
    obtain ⟨rfl, hi⟩ := hon.initial_eq (by omega) (by decide) hdrop
    exact .chunked hm hi hchunks
  | container hm hh hlen hitems =>
    rw [List.append_assoc] at hdrop
    obtain ⟨rfl, hi, hlength, harg⟩ := hon.of_isHead (by omega) hh hdrop
    exact .container hm hi hlength (harg ▸ hlen) hitems
  | unbounded hm hlen hitems =>
    obtain ⟨rfl, hi⟩ := hon.initial_eq (by omega) (by decide) hdrop
    exact .unbounded hm hi hlen hitems
  | tagged hh hb =>
    rw [List.append_assoc] at hdrop
    obtain ⟨rfl, -, -, -⟩ := hon.of_isHead (by decide) hh hdrop
    exact .tagged rfl hh hb

/-- What is under a tag, in the grammar. -/
theorem item_of_tag {b rest : Bytes} (hon : On v 6 info argument) (hb : Cbor.Item d b)
    (hdrop : v.buf.drop v.pos = b ++ rest) :
    ∃ h c arg, b = h ++ c ∧ Cbor.IsHead 6 arg h ∧ Cbor.Item d c := by
  cases itemOn_of_item hon hb hdrop with
  | fixed hm hlen => omega
  | string hm hi hh => omega
  | chunked hm hi hchunks => omega
  | container hm hi hlen hcount hitems => omega
  | unbounded hm hi hcount hitems => omega
  | tagged hm hh hc => exact ⟨_, _, _, rfl, hh, hc⟩

theorem untilEnd_complete {step : Value → Changed} (hstep : Steps u d step) {fuel : Nat}
    {items : List Bytes} {rest : Bytes} (hon : On v major info argument) (hr : v.remaining ≠ 0)
    (hlen : v.buf.length < 2 ^ 31) (hfilled : Filled d v items rest)
    (hfuel : items.flatten.length < fuel) :
    ∃ w, untilEnd step fuel v = (w, .ok ()) ∧ Closed v w items.flatten.length := by
  induction fuel generalizing v items major info argument with
  | zero => omega
  | succ fuel ih =>
    have hat : v.atEnd = false := by
      rw [atEnd, decide_eq_false_iff_not]
      exact hr
    have hlt := hon.pos_lt
    -- one round, over the bytes `b` in front of the item that `next` starts
    have hround : ∀ {b next : Bytes}, v.buf.drop v.pos = b ++ next → StepOf d v b →
        (v.ty ≠ tag → v.remaining ≠ 1) → (∃ major info argument, HeadAt next major info argument) →
        ∃ x, step v = (x, .ok ()) ∧ Onward v x b.length ∧ next = x.buf.drop x.pos := by
      intro b next hdrop hb hone hhead
      obtain ⟨y, hmoved, hcomplete⟩ := hstep.complete hlen hon hr hdrop hb
      have hfit := length_drop_of_append (by omega) hdrop
      have hypos : y.pos < 2 ^ 31 := by
        rw [hmoved.pos]
        omega
      have hnext : next = y.buf.drop y.pos := by
        rw [hmoved.buf, hmoved.pos, drop_add_of_append hdrop]
      obtain ⟨m, i, argument', hhead⟩ := hhead
      obtain ⟨x, hx⟩ := next_item (u := u) hypos (hmoved.remaining ▸ hr)
        (by rw [hmoved.ty, hmoved.remaining]; exact hone) (hnext ▸ hhead)
      rcases next_from hr hmoved (next_sound hypos (hmoved.remaining ▸ hr) hx) with
        honward | ⟨hty, unknown, hended, ⟨hend, -⟩ | ⟨-, -, hbreak, -⟩⟩
      · refine ⟨x, hcomplete x hx, honward, ?_⟩
        rw [honward.buf, honward.pos, drop_add_of_append hdrop]
      · exact absurd hend (hone hty)
      · apply absurd _ hhead.not_break
        rw [← hbreak, ← drop_add_of_append hdrop]
        simp
    obtain ⟨b, items, rfl⟩ := List.exists_cons_of_ne_nil (filled_ne_nil hon hr hfilled)
    have hb := hfilled.each b List.mem_cons_self
    have hdrop := hfilled.drop
    rw [List.flatten_cons, List.append_assoc] at hdrop
    rw [List.flatten_cons, List.length_append] at hfuel ⊢
    rw [untilEnd, hat]
    simp only [Bool.false_eq_true, if_false]
    by_cases hty : v.ty = tag
    · obtain rfl := hon.tag_iff.mp hty
      obtain ⟨h, c, arg, rfl, hh, hc⟩ := item_of_tag hon hb hdrop
      have hpos := hh.length_pos
      rw [List.append_assoc] at hdrop
      obtain ⟨x, hx, honward, hnext⟩ := hround hdrop ⟨fun _ => ⟨arg, hh⟩, fun hne => absurd hty hne⟩
        (fun hne => absurd hty hne) (headAt_of_item hc _)
      obtain ⟨m, i, argument', hon'⟩ := honward.on
      rw [hnext] at hdrop
      have hfilled' := (filled_tagged_iff honward hty hdrop hh hc).mp hfilled
      rw [List.length_append] at hfuel ⊢
      obtain ⟨w, hw, hclosed⟩ := ih hon' honward.live (honward.buf ▸ hlen) hfilled' (by
        rw [List.flatten_cons, List.length_append]
        omega)
      have hall := closed_onward honward hclosed
      rw [List.flatten_cons, List.length_append, ← Nat.add_assoc] at hall
      exact ⟨w, by rw [hx]; exact hw, hall⟩
    · have hstepOf : StepOf d v b := ⟨fun htag => absurd htag hty, fun _ => hb⟩
      have hbpos := hb.length_pos
      cases items with
      | nil =>
        rw [List.flatten_nil, List.nil_append] at hdrop
        obtain ⟨-, hend⟩ := (filled_last_iff hdrop).mp hfilled
        obtain ⟨y, hmoved, hcomplete⟩ := hstep.complete hlen hon hr hdrop hstepOf
        have hfit := length_drop_of_append (by omega) hdrop
        have hypos : y.pos < 2 ^ 31 := by
          rw [hmoved.pos]
          omega
        have hyty : y.ty ≠ tag := by
          rw [hmoved.ty]
          exact hty
        have hbyte : y.buf[y.pos]? = rest[0]? := by
          rw [hmoved.buf, hmoved.pos, ← drop_add_of_append hdrop]
          simp
        have hx : ∃ x, y.preparseNextValue u = (x, .ok ()) := by
          rcases hend with hone | ⟨hopen, hbreak, hkey⟩
          · exact next_ended hyty (hmoved.remaining.trans hone)
          · apply next_broke hyty (hmoved.remaining.trans hopen) (hbyte.trans hbreak)
            rw [hmoved.isMap, hmoved.nextIsMapKey]
            exact hkey
        obtain ⟨x, hx⟩ := hx
        rcases next_from hr hmoved (next_sound hypos (hmoved.remaining ▸ hr) hx) with
          honward | ⟨-, unknown, hended, hlast⟩
        · -- nothing follows: the count is used up, or there is the break
          exfalso
          obtain ⟨m, i, argument', hon'⟩ := honward.on
          rcases hend with hone | ⟨hopen, hbreak, -⟩
          · have hcount := honward.counted (by rw [hone]; exact unbounded_ne_one.symm)
            rw [if_neg hty, hone] at hcount
            have hzero : x.remaining.toNat = 0 := Nat.succ_injective hcount.symm
            exact honward.live (UInt32.toNat_inj.mp hzero)
          · apply hon'.head.not_break
            rw [← hbreak, honward.buf, honward.pos, drop_add_of_append hdrop]
        · refine ⟨x, ?_, hended.remaining, hended.ty, ?_, ?_, hended.buf.trans hmoved.buf⟩
          · rw [hcomplete x hx]
            exact untilEnd_ended step (by omega) hended.remaining
          · rw [hended.unknownLength]
            rcases hlast with ⟨hone, rfl⟩ | ⟨hopen, rfl, -⟩
            · rw [hone]
              rfl
            · rw [decide_eq_true hopen]
          · rw [hended.pos, hmoved.pos]
            simp
      | cons c items =>
        have hc := hfilled.each c (List.mem_cons_of_mem b List.mem_cons_self)
        have hone : v.ty ≠ tag → v.remaining ≠ 1 := by
          intro _ hone
          have hcount := hfilled.counted (by rw [hone]; exact unbounded_ne_one.symm)
          rw [hone, List.length_cons, List.length_cons] at hcount
          change items.length + 1 + 1 = 1 at hcount
          omega
        have hhead : ∃ m i argument, HeadAt ((c :: items).flatten ++ rest) m i argument := by
          rw [List.flatten_cons, List.append_assoc]
          exact headAt_of_item hc _
        obtain ⟨x, hx, honward, hnext⟩ := hround hdrop hstepOf hone hhead
        obtain ⟨m, i, argument', hon'⟩ := honward.on
        rw [hnext] at hdrop
        obtain ⟨-, hfilled'⟩ := (filled_cons_iff honward hty hdrop).mp hfilled
        obtain ⟨w, hw, hclosed⟩ := ih hon' honward.live (honward.buf ▸ hlen) hfilled' (by omega)
        exact ⟨w, by rw [hx]; exact hw, closed_onward honward hclosed⟩

end

end Value

end Bristlemouth.Parser
