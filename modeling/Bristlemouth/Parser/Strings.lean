import Bristlemouth.Parser.Steps

/-!
# Strings

A string is walked over exactly if it is one of the grammar: definite, or chunks of its own type up
to a break.
-/

set_option autoImplicit false

namespace Bristlemouth.Parser

open Bytes Config

/-- The iterator `n` bytes on, before it looks at what is there. -/
structure Moved (v w : Value) (n : Nat) : Prop extends Kept v w where
  ty : w.ty = v.ty
  unknownLength : w.flags.unknownLength = v.flags.unknownLength
  pos : w.pos = v.pos + n

theorem Moved.trans {v w x : Value} {m n : Nat} (h : Moved v w m) (h' : Moved w x n) :
    Moved v x (m + n) where
  buf := h'.buf.trans h.buf
  remaining := h'.remaining.trans h.remaining
  isMap := h'.isMap.trans h.isMap
  nextIsMapKey := h'.nextIsMapKey.trans h.nextIsMapKey
  ty := h'.ty.trans h.ty
  unknownLength := h'.unknownLength.trans h.unknownLength
  pos := by rw [h'.pos, h.pos, Nat.add_assoc]

theorem type_injective {m k : Nat} (hm : m < 8) (hk : k < 8)
    (h : UInt8.ofNat (32 * m) = UInt8.ofNat (32 * k)) : m = k := by
  have hnat := congrArg UInt8.toNat h
  change 32 * m % 256 = 32 * k % 256 at hnat
  omega

theorem length_drop_of_append {buf a b : Bytes} {pos : Nat} (hpos : pos ≤ buf.length)
    (h : buf.drop pos = a ++ b) : pos + a.length ≤ buf.length := by
  have hlen := congrArg List.length h
  rw [List.length_drop, List.length_append] at hlen
  omega

theorem drop_add_of_append {buf a b : Bytes} {pos : Nat} (h : buf.drop pos = a ++ b) :
    buf.drop (pos + a.length) = b := by
  rw [← List.drop_drop, h, List.drop_left]

namespace Value

section
variable {u : Usize} {x y : Value} {major : Nat}

theorem transferString_eq {len offset : Nat} (hlen : x.buf.length < 2 ^ 31)
    (hfit : x.pos + offset + len ≤ x.buf.length) :
    x.transferString u len offset = .ok (some (x.pos + offset, len),
      { x with pos := x.pos + offset + len, flags := { x.flags with negativeInteger := false } }) := by
  have hmax := u.le_max
  have hread : ({ x with pos := x.pos + offset } : Value).canRead len = true := by
    rw [canRead, decide_eq_true_eq]
    change len ≤ x.buf.length - (x.pos + offset)
    omega
  simp only [transferString, addUsize, bind, Except.bind]
  rw [if_pos (by omega)]
  simp only [hread, Bool.not_true, Bool.false_eq_true, if_false]
  rw [if_pos (by omega)]
  rfl

theorem transferString_fits {len offset : Nat} {r : Option (Nat × Nat) × Value} (hhead : x.pos + offset ≤ x.buf.length)
    (h : x.transferString u len offset = .ok r) : x.pos + offset + len ≤ x.buf.length := by
  by_contra hshort
  have hread : ({ x with pos := x.pos + offset } : Value).canRead len = false := by
    rw [canRead, decide_eq_false_iff_not]
    change ¬ len ≤ x.buf.length - (x.pos + offset)
    omega
  simp only [transferString, addUsize, bind, Except.bind] at h
  split_ifs at h with hsum
  · simp only [hread, Bool.not_false, if_true] at h
    cases h

/-- A definite string of the type is the next chunk. -/
theorem stringChunk_chunk {head body rest : Bytes} (hm : major = 2 ∨ major = 3)
    (hty : x.ty = UInt8.ofNat (32 * major)) (hopen : (x.isLengthKnown && !x.flags.negativeInteger) = false)
    (hlen : x.buf.length < 2 ^ 31) (hpos : x.pos ≤ x.buf.length)
    (hh : Cbor.IsHead major body.length head) (hdrop : x.buf.drop x.pos = head ++ (body ++ rest)) :
    x.stringChunk u = .ok (some (x.pos + head.length, body.length),
      { x with
        pos := x.pos + head.length + body.length
        flags := { x.flags with negativeInteger := false } }) := by
  obtain ⟨info, argument, hi, hargument, rfl, harg⟩ := argument_of_isHead hh
  have hfit : x.pos + (Cbor.initial major info :: argument).length + body.length ≤ x.buf.length := by
    have hall := length_drop_of_append hpos hdrop
    have hbody := length_drop_of_append hall (drop_add_of_append hdrop)
    omega
  have hhead : HeadAt (x.buf.drop x.pos) major info argument :=
    .definite (by omega) hi hargument hdrop (by omega)
  have hbreak : Cbor.initial major info ≠ breakByte := by
    intro heq
    apply hhead.not_break
    rw [hdrop, List.cons_append, List.getElem?_cons_zero, heq]
  have htype : ¬ Cbor.initial major info &&& 0xe0 ≠ x.ty := by
    rw [initial_type (by omega) (by omega), hty, not_not]
  obtain ⟨hnat, -, h27, h24⟩ := info_tests hi
  rw [stringChunk, hopen, getElem?_of_drop hdrop]
  simp only [Bool.false_eq_true, if_false]
  rw [if_neg hbreak, if_neg htype, initial_info (by omega : info < 32)]
  by_cases hshort : info < 24
  · rw [needed_short hshort, List.length_eq_zero_iff] at hargument
    subst hargument
    rw [argumentOf, if_pos hshort] at harg
    rw [if_pos (h24.mpr hshort), hnat, harg]
    exact transferString_eq hlen hfit
  · have hneeded : argLen (UInt8.ofNat info) = argument.length := by
      rw [hargument, needed, if_neg (mt h24.mp hshort)]
    have hread : x.canRead (1 + argument.length) = true := by
      rw [canRead, decide_eq_true_eq]
      rw [List.length_cons] at hfit
      omega
    have hbytes : x.bytesAt u 1 = .ok (argument ++ (body ++ rest)) := by
      rw [bytesAt_one (by omega), drop_succ hdrop]
      rfl
    have hfirst : firstBytes (argument ++ (body ++ rest)) argument.length = .ok argument := by
      rw [firstBytes, if_pos (by rw [List.length_append]; omega), List.take_left]
    have hlong := length_argument hi hargument
    have hbound := beNat_lt argument
    have hpow : 256 ^ argument.length ≤ 256 ^ 8 := Nat.pow_le_pow_right (by decide) hlong
    have hvalue : (readBe argument).toNat = body.length := by
      rw [argumentOf, if_neg hshort] at harg
      rw [readBe, UInt64.toNat_ofNat', harg]
      rw [harg] at hbound
      exact Nat.mod_eq_of_lt (by omega)
    rw [if_neg (mt h24.mp hshort), if_neg h27, hneeded, hread]
    simp only [Bool.not_true, Bool.false_eq_true, if_false, hbytes, bind, Except.bind, hfirst, hvalue,
      u.tryFrom_of_lt (show body.length < 2 ^ 32 by omega)]
    exact transferString_eq hlen hfit

/-- The walk is over, or it is on a definite string of the type. -/
theorem stringChunk_cases {r : Option (Nat × Nat)} (hm : major = 2 ∨ major = 3)
    (hty : x.ty = UInt8.ofNat (32 * major)) (hlen : x.buf.length < 2 ^ 31)
    (h : x.stringChunk u = .ok (r, y)) :
    (r = none ∧ y = x ∧ ((x.isLengthKnown && !x.flags.negativeInteger) = true ∨
      (x.isLengthKnown && !x.flags.negativeInteger) = false ∧ x.buf[x.pos]? = some breakByte)) ∨
    (x.isLengthKnown && !x.flags.negativeInteger) = false ∧ ∃ head body rest : Bytes,
      Cbor.IsHead major body.length head ∧ x.buf.drop x.pos = head ++ (body ++ rest) ∧
      r = some (x.pos + head.length, body.length) ∧
      y = { x with
        pos := x.pos + head.length + body.length
        flags := { x.flags with negativeInteger := false } } := by
  by_cases hopen : (x.isLengthKnown && !x.flags.negativeInteger) = true
  · rw [stringChunk, if_pos hopen] at h
    cases h
    exact .inl ⟨rfl, rfl, .inl hopen⟩
  · rw [Bool.not_eq_true] at hopen
    cases hd : x.buf[x.pos]? with
    | none =>
      rw [stringChunk, hopen, hd] at h
      cases h
    | some d =>
      obtain ⟨hlt, hget⟩ := List.getElem?_eq_some_iff.mp hd
      have hdrop : x.buf.drop x.pos = d :: x.buf.drop (x.pos + 1) := by
        rw [List.drop_eq_getElem_cons hlt, hget]
      by_cases hbreak : d = breakByte
      · subst hbreak
        simp only [stringChunk, hopen, hd, Bool.false_eq_true, if_false, if_true] at h
        cases h
        exact .inl ⟨rfl, rfl, .inr ⟨hopen, rfl⟩⟩
      · refine .inr ⟨hopen, ?_⟩
        obtain ⟨m, info, hm8, hi, rfl⟩ := exists_initial d
        have hchunk := h
        simp only [stringChunk, hopen, hd, Bool.false_eq_true, if_false, if_neg hbreak,
          initial_type hm8 hi, initial_info hi] at h
        by_cases htype : UInt8.ofNat (32 * m) ≠ x.ty
        · rw [if_pos htype] at h
          cases h
        · rw [if_neg htype] at h
          have hsame : m = major := type_injective hm8 (by omega) ((not_not.mp htype).trans hty)
          subst hsame
          -- what follows the initial byte is taken apart as the code does it
          suffices hparts : ∃ argument body rest : Bytes, info ≤ 27 ∧
              argument.length = needed (UInt8.ofNat info) ∧
              argumentOf info argument = body.length ∧
              x.buf.drop (x.pos + 1) = argument ++ (body ++ rest) by
            obtain ⟨argument, body, rest, h27, hargument, harg, htail⟩ := hparts
            have hh := isHead_of_argument m h27 hargument
            rw [harg] at hh
            have hwhole : x.buf.drop x.pos = (Cbor.initial m info :: argument) ++ (body ++ rest) := by
              rw [hdrop, htail]
              rfl
            have hresult := stringChunk_chunk (u := u) hm hty hopen hlen (by omega) hh hwhole
            have hpair := Except.ok.inj (hchunk.symm.trans hresult)
            exact ⟨_, body, rest, hh, hwhole, congrArg Prod.fst hpair, congrArg Prod.snd hpair⟩
          have htake : ∀ {start n : Nat}, start + n ≤ x.buf.length →
              ((x.buf.drop start).take n).length = n := by
            intro start n hle
            rw [List.length_take, List.length_drop]
            omega
          by_cases h27 : info ≤ 27
          · obtain ⟨hnat, -, hnot, h24⟩ := info_tests h27
            by_cases hshort : info < 24
            · rw [if_pos (h24.mpr hshort), hnat] at h
              have hfit := transferString_fits (by omega) h
              refine ⟨[], (x.buf.drop (x.pos + 1)).take info, (x.buf.drop (x.pos + 1)).drop info, h27,
                (needed_short hshort).symm, ?_, (List.take_append_drop _ _).symm⟩
              rw [argumentOf, if_pos hshort, htake hfit]
            · rw [if_neg (mt h24.mp hshort), if_neg hnot] at h
              have hneeded : needed (UInt8.ofNat info) = argLen (UInt8.ofNat info) := by
                rw [needed, if_neg (mt h24.mp hshort)]
              by_cases hread : x.canRead (1 + argLen (UInt8.ofNat info)) = true
              · have hroom : x.pos + 1 + argLen (UInt8.ofNat info) ≤ x.buf.length := by
                  rw [canRead, decide_eq_true_eq] at hread
                  omega
                have hargument := htake hroom
                have hlong := length_argument h27 (hargument.trans hneeded.symm)
                have hbound := beNat_lt ((x.buf.drop (x.pos + 1)).take (argLen (UInt8.ofNat info)))
                have hpow : 256 ^ ((x.buf.drop (x.pos + 1)).take (argLen (UInt8.ofNat info))).length ≤
                    256 ^ 8 := Nat.pow_le_pow_right (by decide) hlong
                have hfirst : firstBytes (x.buf.drop (x.pos + 1)) (argLen (UInt8.ofNat info)) =
                    .ok ((x.buf.drop (x.pos + 1)).take (argLen (UInt8.ofNat info))) := by
                  rw [firstBytes, if_pos]
                  rw [List.length_drop]
                  omega
                rw [hread] at h
                simp only [Bool.not_true, Bool.false_eq_true, if_false, bytesAt_one (u := u)
                  (show x.pos < 2 ^ 31 by omega), bind, Except.bind, hfirst] at h
                cases hfrom : u.tryFrom (readBe ((x.buf.drop (x.pos + 1)).take
                    (argLen (UInt8.ofNat info)))).toNat with
                | none =>
                  simp only [hfrom] at h
                  cases h
                | some len =>
                  simp only [hfrom] at h
                  have hfit := transferString_fits (by omega) h
                  have hvalue : beNat ((x.buf.drop (x.pos + 1)).take (argLen (UInt8.ofNat info))) = len := by
                    rw [Usize.tryFrom] at hfrom
                    split_ifs at hfrom
                    rw [← Option.some_injective _ hfrom, readBe, UInt64.toNat_ofNat']
                    exact (Nat.mod_eq_of_lt (by omega)).symm
                  refine ⟨_, (x.buf.drop (x.pos + 1 + argLen (UInt8.ofNat info))).take len,
                    (x.buf.drop (x.pos + 1 + argLen (UInt8.ofNat info))).drop len, h27,
                    hargument.trans hneeded.symm, ?_, ?_⟩
                  · rw [argumentOf, if_neg hshort, htake (by omega), hvalue]
                  · have hrest := List.take_append_drop (argLen (UInt8.ofNat info)) (x.buf.drop (x.pos + 1))
                    rw [List.drop_drop] at hrest
                    rw [List.take_append_drop]
                    exact hrest.symm
              · rw [Bool.not_eq_true] at hread
                rw [hread] at h
                cases h
          · have hhigh : (27 : UInt8) < UInt8.ofNat info := by
              rw [UInt8.lt_iff_toNat_lt, UInt8.toNat_ofNat']
              change 27 < info % 256
              omega
            have hlow : ¬ UInt8.ofNat info < 24 := by
              rw [UInt8.lt_iff_toNat_lt, UInt8.toNat_ofNat']
              change ¬ info % 256 < 24
              omega
            rw [if_neg hlow, if_pos hhigh] at h
            cases h

theorem iterateChunks_step (buflen fuel : Nat) {start len : Nat} {s : Chunking}
    (hchunk : s.next.stringChunk u = .ok (some (start, len), y)) (hsum : s.total + len ≤ u.max)
    (hfit : start + len ≤ s.next.buf.length) :
    ∃ t : Chunking, t.next = y ∧ t.total = s.total + len ∧
      (iterateChunks u buflen (fuel + 1) s).2 = (iterateChunks u buflen fuel t).2 := by
  simp only [iterateChunks, hchunk, if_neg (not_lt.mpr hsum), slice?_of_le hfit]
  by_cases hcopy : (s.all && decide (s.total + len ≤ buflen)) = true
  · rw [if_pos hcopy]
    exact ⟨_, rfl, rfl, rfl⟩
  · rw [if_neg hcopy]
    exact ⟨_, rfl, rfl, rfl⟩

/-- The chunks of a chunked string, up to its break. -/
theorem iterateChunks_sound {buflen fuel : Nat} {s s' : Chunking} (hm : major = 2 ∨ major = 3)
    (hty : s.next.ty = UInt8.ofNat (32 * major)) (hunknown : s.next.flags.unknownLength = true)
    (hlen : s.next.buf.length < 2 ^ 31) (h : (iterateChunks u buflen fuel s).2 = .ok s') :
    ∃ bs rest : Bytes, Cbor.Chunks major bs ∧ s.next.buf.drop s.next.pos = bs ++ breakByte :: rest ∧
      Moved s.next s'.next bs.length := by
  induction fuel generalizing s with
  | zero => cases h
  | succ fuel ih =>
    rw [iterateChunks] at h
    cases hchunk : s.next.stringChunk u with
    | error e =>
      rw [hchunk] at h
      cases h
    | ok found =>
      obtain ⟨r, next⟩ := found
      rw [hchunk] at h
      rcases stringChunk_cases hm hty hlen hchunk with
        ⟨rfl, rfl, hend | ⟨-, hbyte⟩⟩ | ⟨-, head, body, rest, hh, hdrop, rfl, rfl⟩
      · simp [isLengthKnown, hunknown] at hend
      · cases h
        obtain ⟨hlt, hget⟩ := List.getElem?_eq_some_iff.mp hbyte
        refine ⟨[], s.next.buf.drop (s.next.pos + 1), .nil, ?_, ⟨⟨rfl, rfl, rfl, rfl⟩, rfl, rfl, rfl⟩⟩
        rw [List.drop_eq_getElem_cons hlt, hget]
        rfl
      · have hrest : ∃ t : Chunking, (iterateChunks u buflen fuel t).2 = .ok s' ∧ t.next =
            { s.next with
              pos := s.next.pos + head.length + body.length
              flags := { s.next.flags with negativeInteger := false } } := by
          dsimp only at h
          split_ifs at h
          · split at h
            · cases h
            · exact ⟨_, h, rfl⟩
          · exact ⟨_, h, rfl⟩
        obtain ⟨t, ht, hnext⟩ := hrest
        obtain ⟨bs, tail, hbs, hafter, hmoved⟩ := ih (s := t) (by rw [hnext]; exact hty)
          (by rw [hnext]; exact hunknown) (by rw [hnext]; exact hlen) ht
        rw [hnext] at hafter hmoved
        have hskip : rest = bs ++ breakByte :: tail := by
          rw [← hafter]
          have hbody := drop_add_of_append hdrop
          exact (drop_add_of_append hbody).symm
        refine ⟨head ++ body ++ bs, tail, .cons hh hbs, ?_, ?_⟩
        · rw [hdrop, hskip, List.append_assoc, List.append_assoc]
        · have hstep : Moved s.next { s.next with
              pos := s.next.pos + head.length + body.length
              flags := { s.next.flags with negativeInteger := false } } (head.length + body.length) :=
            ⟨⟨rfl, rfl, rfl, rfl⟩, rfl, rfl, Nat.add_assoc ..⟩
          have htotal := hstep.trans hmoved
          rw [List.length_append, List.length_append]
          exact htotal

theorem iterateChunks_complete {buflen : Nat} {bs rest : Bytes} (hm : major = 2 ∨ major = 3)
    (hbs : Cbor.Chunks major bs) (fuel : Nat) (s : Chunking) (hty : s.next.ty = UInt8.ofNat (32 * major))
    (hunknown : s.next.flags.unknownLength = true) (hlen : s.next.buf.length < 2 ^ 31)
    (hpos : s.next.pos ≤ s.next.buf.length) (hdrop : s.next.buf.drop s.next.pos = bs ++ breakByte :: rest)
    (hfuel : bs.length < fuel) (htotal : s.total + bs.length < 2 ^ 31) :
    ∃ s', (iterateChunks u buflen fuel s).2 = .ok s' ∧ Moved s.next s'.next bs.length := by
  have hmax := u.le_max
  have hopen : (s.next.isLengthKnown && !s.next.flags.negativeInteger) = false := by
    rw [isLengthKnown, hunknown]
    rfl
  induction hbs generalizing fuel s with
  | nil =>
    obtain ⟨fuel, rfl⟩ := Nat.exists_eq_add_one.mpr hfuel
    have hnone : s.next.stringChunk u = .ok (none, s.next) := by
      simp only [stringChunk, hopen, getElem?_of_drop hdrop, Bool.false_eq_true, if_false, if_true]
    refine ⟨{ s with next := s.next }, ?_, ⟨⟨rfl, rfl, rfl, rfl⟩, rfl, rfl, rfl⟩⟩
    rw [iterateChunks, hnone]
  | @cons head body bs hh hrest ih =>
    obtain ⟨fuel, rfl⟩ := Nat.exists_eq_add_one.mpr (Nat.zero_lt_of_lt hfuel)
    have hwhole : s.next.buf.drop s.next.pos = head ++ (body ++ (bs ++ breakByte :: rest)) := by
      rw [hdrop, List.append_assoc, List.append_assoc]
    have hchunk := stringChunk_chunk (u := u) hm hty hopen hlen hpos hh hwhole
    have hbody := drop_add_of_append hwhole
    have hafter := drop_add_of_append hbody
    have hheadfit := length_drop_of_append hpos hwhole
    have hbodyfit := length_drop_of_append hheadfit hbody
    have hheadpos := hh.length_pos
    simp only [List.length_append] at hfuel htotal
    obtain ⟨t, hnext, hsum, hstep⟩ := iterateChunks_step buflen fuel hchunk
      (by omega) hbodyfit
    obtain ⟨s', hs', hmoved⟩ := ih fuel t (by rw [hnext]; exact hty)
      (by rw [hnext]; exact hunknown) (by rw [hnext]; exact hlen) (by rw [hnext]; exact hbodyfit)
      (by rw [hnext]; exact hafter) (by omega) (by omega)
      (by rw [hnext, isLengthKnown]; simp [hunknown])
    refine ⟨s', hstep.trans hs', ?_⟩
    rw [hnext] at hmoved
    have hfirst : Moved s.next { s.next with
        pos := s.next.pos + head.length + body.length
        flags := { s.next.flags with negativeInteger := false } } (head.length + body.length) :=
      ⟨⟨rfl, rfl, rfl, rfl⟩, rfl, rfl, Nat.add_assoc ..⟩
    rw [List.length_append, List.length_append]
    exact hfirst.trans hmoved

/-- What `iterate_string` makes of its chunks: the step behind the string, from `w`. -/
def Walked (u : Usize) (v w : Value) (buflen : Nat) : Prop :=
  ∃ copied, (v.iterateString u buflen).2 =
    (w.preparseNextValue u).get.map fun next => (copied, next)

theorem finishString_known {buflen : Nat} {s : Chunking} (hknown : s.next.flags.unknownLength = false) :
    finishString u buflen s = (s.next.preparseNextValue u).get.map fun next =>
      (⟨s.total, s.all, s.all && decide (s.total < buflen)⟩, next) := by
  simp only [finishString, isLengthKnown, hknown, Bool.not_false, if_true, bind, Except.bind]
  cases (s.next.preparseNextValue u).get with
  | error e => rfl
  | ok next => rfl

theorem finishString_unknown {buflen : Nat} {s : Chunking} (hunknown : s.next.flags.unknownLength = true)
    (hpos : s.next.pos + 1 < 2 ^ 32) :
    finishString u buflen s = (({ s.next with pos := s.next.pos + 1 } : Value).preparseNextValue u).get.map
      fun next => (⟨s.total, s.all, s.all && decide (s.total < buflen)⟩, next) := by
  have hmax := u.le_max
  simp only [finishString, isLengthKnown, hunknown, Bool.not_true, Bool.false_eq_true, if_false, bind,
    Except.bind, addUsize]
  rw [if_pos (by omega)]
  dsimp only
  cases (({ s.next with pos := s.next.pos + 1 } : Value).preparseNextValue u).get with
  | error e => rfl
  | ok next => rfl

variable {v : Value} {info : Nat} {argument : Bytes}

/-- The iterator of `iterate_string` before the first chunk. -/
def beforeChunks (v : Value) (pos : Nat) : Value :=
  { v with pos, flags := { v.flags with iteratingStringChunks := true, negativeInteger := true } }

theorem iterateString_chunks {buflen pos : Nat} (hstring : (!v.isTextString && !v.isByteString) = false)
    (hpos : (if v.isLengthKnown then .ok v.pos else addUsize u v.pos 1) = Except.ok pos) :
    (v.iterateString u buflen).2 =
      (iterateChunks u buflen (v.buf.length + 1) ⟨v.beforeChunks pos, 0, true⟩).2.bind
        (finishString u buflen) := by
  simp only [iterateString, hstring, Bool.false_eq_true, if_false, hpos]
  rw [beforeChunks]
  generalize iterateChunks u buflen (v.buf.length + 1) _ = outcome
  obtain ⟨copies, result⟩ := outcome
  cases result with
  | error e => rfl
  | ok s => rfl

/-- A definite string is its only chunk. -/
theorem iterateString_definite (hon : On v major info argument) (hm : major = 2 ∨ major = 3) (hi : info ≤ 27)
    (hlen : v.buf.length < 2 ^ 31) (buflen : Nat) {head body rest : Bytes}
    (hh : Cbor.IsHead major body.length head) (hdrop : v.buf.drop v.pos = head ++ (body ++ rest)) :
    ∃ w, Moved v w (head ++ body).length ∧ v.iterateString u buflen =
      (if body.length ≤ buflen then [(0, body)] else [],
        (w.preparseNextValue u).get.map fun next =>
          (⟨body.length, decide (body.length ≤ buflen), decide (body.length < buflen)⟩, next)) := by
  have hmax := u.le_max
  have hlt := hon.pos_lt
  have hknown : v.flags.unknownLength = false := by
    rw [hon.unknownLength, decide_eq_false_iff_not]
    omega
  have hty : v.ty = UInt8.ofNat (32 * major) := (hon.ty_iff (by omega) (by omega)).mpr rfl
  have hheadfit := length_drop_of_append (by omega) hdrop
  have hafter := drop_add_of_append hdrop
  have hbodyfit := length_drop_of_append hheadfit hafter
  have hchunk := stringChunk_chunk (u := u) (x := v.beforeChunks v.pos) hm hty
    (by simp [beforeChunks]) hlen (by exact hlt.le) hh hdrop
  -- the iterator behind the body, where `string_chunk` finds nothing more
  generalize hw : ({ v.beforeChunks v.pos with
    pos := (v.beforeChunks v.pos).pos + head.length + body.length
    flags := { (v.beforeChunks v.pos).flags with negativeInteger := false } } : Value) = w at hchunk
  have hwknown : w.flags.unknownLength = false := by
    rw [← hw]
    exact hknown
  have hdone : w.stringChunk u = .ok (none, w) := by
    rw [stringChunk, if_pos]
    rw [isLengthKnown, hwknown, ← hw]
    rfl
  have hlast : ∀ all, iterateChunks u buflen v.buf.length ⟨w, body.length, all⟩ =
      ([], .ok ⟨w, body.length, all⟩) := by
    intro all
    obtain ⟨fuel, hfuel⟩ := Nat.exists_eq_add_one.mpr (Nat.zero_lt_of_lt hlt)
    rw [hfuel, iterateChunks, hdone]
  have hbody : Bytes.slice? (v.beforeChunks v.pos).buf ((v.beforeChunks v.pos).pos + head.length) body.length =
      some body := by
    rw [slice?_of_le (by exact hbodyfit), slice]
    change some ((v.buf.drop (v.pos + head.length)).take body.length) = some body
    rw [hafter, List.take_left]
  have hpos : (if v.isLengthKnown then .ok v.pos else addUsize u v.pos 1) = Except.ok v.pos := by
    rw [isLengthKnown, hknown]
    rfl
  refine ⟨w, ?_, ?_⟩
  · rw [← hw, List.length_append]
    exact ⟨⟨rfl, rfl, rfl, rfl⟩, rfl, rfl, Nat.add_assoc ..⟩
  · have hsum : ¬ u.max < body.length := by omega
    have hfinish : ∀ all, finishString u buflen ⟨w, body.length, all⟩ =
        (w.preparseNextValue u).get.map fun next =>
          (⟨body.length, all, all && decide (body.length < buflen)⟩, next) :=
      fun all => finishString_known hwknown
    simp only [iterateString, hon.string_iff.mpr hm, Bool.false_eq_true, if_false, hpos]
    rw [← beforeChunks, iterateChunks, hchunk]
    simp only [Bool.true_and, Nat.zero_add, decide_eq_true_eq, if_neg hsum]
    by_cases hfit : body.length ≤ buflen
    · simp only [if_pos hfit, hbody, hlast, hfinish, decide_eq_true hfit, Bool.true_and]
    · have hshort : ¬ body.length < buflen := fun h => hfit h.le
      simp only [if_neg hfit, hlast, hfinish, decide_eq_false hfit, decide_eq_false hshort,
        Bool.false_and]

theorem walked_definite (hon : On v major info argument) (hm : major = 2 ∨ major = 3) (hi : info ≤ 27)
    (hlen : v.buf.length < 2 ^ 31) (buflen : Nat) {head body rest : Bytes}
    (hh : Cbor.IsHead major body.length head) (hdrop : v.buf.drop v.pos = head ++ (body ++ rest)) :
    ∃ w, Moved v w (head ++ body).length ∧ Walked u v w buflen := by
  obtain ⟨w, hmoved, hwalk⟩ := iterateString_definite (u := u) hon hm hi hlen buflen hh hdrop
  exact ⟨w, hmoved, _, congrArg Prod.snd hwalk⟩

/-- A chunked string is its chunks and its break. -/
theorem walked_chunked (hon : On v major info argument) (hm : major = 2 ∨ major = 3) (hi : info = 31)
    (hlen : v.buf.length < 2 ^ 31) (buflen : Nat) {bs rest : Bytes} (hbs : Cbor.Chunks major bs)
    (hdrop : v.buf.drop v.pos = Cbor.initial major 31 :: (bs ++ breakByte :: rest)) :
    ∃ w, Moved v w (bs.length + 2) ∧ Walked u v w buflen := by
  have hmax := u.le_max
  have hlt := hon.pos_lt
  have hunknown : v.flags.unknownLength = true := by rw [hon.unknownLength, hi, decide_eq_true rfl]
  have hty : v.ty = UInt8.ofNat (32 * major) := (hon.ty_iff (by omega) (by omega)).mpr rfl
  have hafter := drop_succ hdrop
  have hfit := length_drop_of_append (show v.pos + 1 ≤ v.buf.length from hlt) hafter
  have hstop := length_drop_of_append hfit (drop_add_of_append hafter : _ = [breakByte] ++ rest)
  obtain ⟨s, hs, hmoved⟩ := iterateChunks_complete (u := u) hm hbs (v.buf.length + 1)
    ⟨v.beforeChunks (v.pos + 1), 0, true⟩ hty hunknown hlen hlt hafter (by omega) (by dsimp only; omega)
  have hpos : (if v.isLengthKnown then .ok v.pos else addUsize u v.pos 1) = Except.ok (v.pos + 1) := by
    simp only [isLengthKnown, hunknown, Bool.not_true, Bool.false_eq_true, if_false, addUsize]
    rw [if_pos (by omega)]
  have hnext : s.next.pos = v.pos + 1 + bs.length := hmoved.pos
  have hfirst : Moved v (v.beforeChunks (v.pos + 1)) 1 := ⟨⟨rfl, rfl, rfl, rfl⟩, rfl, rfl, rfl⟩
  have hlast : Moved s.next { s.next with pos := s.next.pos + 1 } 1 := ⟨⟨rfl, rfl, rfl, rfl⟩, rfl, rfl, rfl⟩
  refine ⟨{ s.next with pos := s.next.pos + 1 }, ?_, ⟨s.total, s.all, s.all && decide (s.total < buflen)⟩, ?_⟩
  · have htotal := (hfirst.trans hmoved).trans hlast
    rw [show 1 + bs.length + 1 = bs.length + 2 by omega] at htotal
    exact htotal
  · rw [iterateString_chunks (hon.string_iff.mpr hm) hpos, hs]
    exact finishString_unknown (by rw [hmoved.unknownLength]; exact hunknown) (by omega)

theorem get_map_eq_ok {c : Changed} {copied : Copied} {r : Copied × Value}
    (h : (c.get.map fun next => (copied, next)) = .ok r) : c = (r.2, .ok ()) := by
  obtain ⟨v, result⟩ := c
  cases result with
  | error e => cases h
  | ok _ =>
    cases h
    rfl

/-- A string that is walked over is one of the grammar. -/
theorem iterateString_sound {buflen : Nat} {r : Copied × Value} (hon : On v major info argument)
    (hm : major = 2 ∨ major = 3) (hlen : v.buf.length < 2 ^ 31)
    (h : (v.iterateString u buflen).2 = .ok r) :
    ∃ b rest w, v.buf.drop v.pos = b ++ rest ∧ (∀ d, Cbor.Item d b) ∧ Moved v w b.length ∧
      w.preparseNextValue u = (r.2, .ok ()) := by
  have hty : v.ty = UInt8.ofNat (32 * major) := (hon.ty_iff (by omega) (by omega)).mpr rfl
  have hlt := hon.pos_lt
  have hwalk : ∀ {w : Value}, Walked u v w buflen → w.preparseNextValue u = (r.2, .ok ()) := by
    rintro w ⟨copied, hresult⟩
    exact get_map_eq_ok (hresult.symm.trans h)
  cases hon.head with
  | definite hm8 hi hargument htail hwide =>
    have hknown : v.flags.unknownLength = false := by
      rw [hon.unknownLength, decide_eq_false_iff_not]
      omega
    -- the first round reads the string's own head again
    rw [iterateString_chunks (hon.string_iff.mpr hm) (by rw [isLengthKnown, hknown]; rfl)] at h
    rw [iterateChunks] at h
    cases hchunk : stringChunk u (v.beforeChunks v.pos) with
    | error e =>
      rw [hchunk] at h
      cases h
    | ok found =>
      obtain ⟨range, next⟩ := found
      rcases stringChunk_cases hm (x := v.beforeChunks v.pos) hty hlen hchunk with
        ⟨-, -, hend | ⟨-, hbyte⟩⟩ | ⟨-, head, body, rest, hh, hdrop, -, -⟩
      · simp [beforeChunks] at hend
      · have hbreak : v.buf[v.pos]? = some breakByte := hbyte
        apply absurd _ hon.head.not_break
        simpa using hbreak
      · obtain ⟨w, hmoved, hwalked⟩ := walked_definite (u := u) hon hm hi hlen buflen hh hdrop
        refine ⟨head ++ body, rest, w, ?_, fun d => .string hm hh, hmoved, hwalk hwalked⟩
        rw [List.append_assoc]
        exact hdrop
  | unbounded hm2 hm5 htail =>
    have hunknown : v.flags.unknownLength = true := by rw [hon.unknownLength, decide_eq_true rfl]
    have hmax := u.le_max
    have hpos : (if v.isLengthKnown then .ok v.pos else addUsize u v.pos 1) = Except.ok (v.pos + 1) := by
      simp only [isLengthKnown, hunknown, Bool.not_true, Bool.false_eq_true, if_false, addUsize]
      rw [if_pos (by omega)]
    rw [iterateString_chunks (hon.string_iff.mpr hm) hpos] at h
    cases hchunks : (iterateChunks u buflen (v.buf.length + 1) ⟨v.beforeChunks (v.pos + 1), 0, true⟩).2 with
    | error e =>
      rw [hchunks] at h
      cases h
    | ok s =>
      obtain ⟨bs, rest, hbs, hafter, -⟩ := iterateChunks_sound
        (s := ⟨v.beforeChunks (v.pos + 1), 0, true⟩) hm hty hunknown hlen hchunks
      have hdrop : v.buf.drop v.pos = Cbor.initial major 31 :: (bs ++ breakByte :: rest) := by
        rw [htail, ← drop_succ htail]
        exact congrArg _ hafter
      obtain ⟨w, hmoved, hwalked⟩ := walked_chunked (u := u) hon hm rfl hlen buflen hbs hdrop
      refine ⟨Cbor.initial major 31 :: (bs ++ [Cbor.breakCode]), rest, w, ?_, fun d => .chunked hm hbs, ?_,
        hwalk hwalked⟩
      · rw [hdrop, List.cons_append, List.append_assoc]
        rfl
      · rw [List.length_cons, List.length_append]
        exact hmoved

end

end Value

end Bristlemouth.Parser
