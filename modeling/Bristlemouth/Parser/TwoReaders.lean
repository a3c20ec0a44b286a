import Bristlemouth.Parser.Accepts

/-!
# The config store's reader and the parser

`configuration.rs` reads heads and strings with code of its own. Here it is compared with the parser:
the heads first, then one round of the two string loops, then the loops.
-/

set_option autoImplicit false

namespace Bristlemouth.Parser

open Bytes Config

section
variable {major info : Nat} {argument tail : Bytes}

theorem ofNat_lt_iff {a b : Nat} (ha : a < 256) (hb : b < 256) : UInt8.ofNat a < UInt8.ofNat b ↔ a < b := by
  rw [UInt8.lt_iff_toNat_lt, UInt8.toNat_ofNat', UInt8.toNat_ofNat', Nat.mod_eq_of_lt ha, Nat.mod_eq_of_lt hb]

theorem ofNat_eq_iff {a b : Nat} (ha : a < 256) (hb : b < 256) : UInt8.ofNat a = UInt8.ofNat b ↔ a = b := by
  rw [← UInt8.toNat_inj, UInt8.toNat_ofNat', UInt8.toNat_ofNat', Nat.mod_eq_of_lt ha, Nat.mod_eq_of_lt hb]

/-- `Head.parse` on numbers. -/
theorem headParse_eq (hm : major < 8) (hi : info < 32) :
    Head.parse (Cbor.initial major info :: tail) =
      if 27 < info then
        if info = 31 ∧ 2 ≤ major ∧ major ≤ 5 then some ⟨UInt8.ofNat major, UInt8.ofNat info, 0⟩ else none
      else if info < 24 then some ⟨UInt8.ofNat major, UInt8.ofNat info, info⟩
      else (slice? (Cbor.initial major info :: tail) 1 (argLen (UInt8.ofNat info))).bind fun bytes =>
        if major = 7 ∧ info = 24 ∧ beNat bytes < 32 then none
        else some ⟨UInt8.ofNat major, UInt8.ofNat info, beNat bytes⟩ := by
  have h27 : 27 < UInt8.ofNat info ↔ 27 < info := ofNat_lt_iff (by decide) (by omega)
  have h24 : UInt8.ofNat info < 24 ↔ info < 24 := ofNat_lt_iff (by omega) (by decide)
  have h31 : UInt8.ofNat info = 31 ↔ info = 31 := ofNat_eq_iff (by omega) (by decide)
  have he24 : UInt8.ofNat info = 24 ↔ info = 24 := ofNat_eq_iff (by omega) (by decide)
  have h7 : UInt8.ofNat major = 7 ↔ major = 7 := ofNat_eq_iff (by omega) (by decide)
  have hlow : 2 ≤ UInt8.ofNat major ↔ 2 ≤ major := by
    rw [← UInt8.not_lt, ← not_lt]
    exact not_congr (ofNat_lt_iff (by omega) (by decide))
  have hhigh : UInt8.ofNat major ≤ 5 ↔ major ≤ 5 := by
    rw [← UInt8.not_lt, ← not_lt]
    exact not_congr (ofNat_lt_iff (by decide) (by omega))
  have hnat : (UInt8.ofNat info).toNat = info := Nat.mod_eq_of_lt (by omega)
  simp only [Head.parse, List.head?_cons, Option.bind_eq_bind, Option.bind_some, initial_shift hm hi,
    initial_info hi, h27, h24, h31, he24, h7, hlow, hhigh, hnat]
  by_cases hshort : info < 24
  · have hne : ¬ (major = 7 ∧ info = 24 ∧ info < 32) := by omega
    simp only [if_pos hshort, if_neg hne]
  · simp only [if_neg hshort, Option.bind_map, Function.comp_def]

theorem needed_wide (hshort : ¬ info < 24) (hi : info ≤ 27) :
    needed (UInt8.ofNat info) = argLen (UInt8.ofNat info) := by
  obtain ⟨-, -, -, h24⟩ := info_tests hi
  exact if_neg (mt h24.mp hshort)

/-- The argument as the config store reads it. -/
def storedArgument (info : Nat) (argument : Bytes) : Nat := if info = 31 then 0 else argumentOf info argument

theorem headParse_iff {buf : Bytes} {head : Head} :
    Head.parse buf = some head ↔ ∃ major info argument, HeadAt buf major info argument ∧
      head = ⟨UInt8.ofNat major, UInt8.ofNat info, storedArgument info argument⟩ := by
  constructor
  · intro h
    cases buf with
    | nil => cases h
    | cons d tail =>
      obtain ⟨major, info, hm, hi, rfl⟩ := exists_initial d
      rw [headParse_eq hm hi] at h
      split_ifs at h with h27 hopen hshort
      · obtain ⟨rfl, hm2, hm5⟩ := hopen
        cases h
        exact ⟨major, 31, [], .unbounded hm2 hm5 rfl, rfl⟩
      · cases h
        refine ⟨major, info, [], .definite hm (by omega) (Value.needed_short hshort).symm rfl (by omega), ?_⟩
        rw [storedArgument, if_neg (by omega), argumentOf, if_pos hshort]
      · obtain ⟨bytes, hslice, h⟩ := Option.bind_eq_some_iff.mp h
        split_ifs at h with hnarrow
        cases h
        obtain ⟨hfit, hbytes, hlength⟩ := slice?_eq_some hslice
        have hsplit : tail = bytes ++ tail.drop (argLen (UInt8.ofNat info)) := by
          rw [hbytes]
          exact (List.take_append_drop _ tail).symm
        refine ⟨major, info, bytes, .definite hm (by omega) ?_ (congrArg _ hsplit) ?_, ?_⟩
        · rw [hlength, needed_wide hshort (by omega)]
        · intro h7 h24
          exact Nat.le_of_not_lt fun hlt => hnarrow ⟨h7, h24, hlt⟩
        · rw [storedArgument, if_neg (by omega), argumentOf, if_neg hshort]
  · rintro ⟨major, info, argument, hhead, rfl⟩
    cases hhead with
    | @definite _ _ rest hm hi hlen htail hwide =>
      have h27 : ¬ 27 < info := by omega
      have h31 : ¬ info = 31 := by omega
      rw [htail, headParse_eq hm (by omega), if_neg h27, storedArgument, if_neg h31, argumentOf]
      by_cases hshort : info < 24
      · rw [if_pos hshort, if_pos hshort]
      · rw [needed_wide hshort hi] at hlen
        rw [if_neg hshort, if_neg hshort, slice?_head hlen]
        have hnarrow : ¬ (major = 7 ∧ info = 24 ∧ beNat argument < 32) := by
          rintro ⟨h7, h24, hlt⟩
          exact absurd (hwide h7 h24) (Nat.not_le_of_lt hlt)
        exact if_neg hnarrow
    | unbounded hm hm5 htail =>
      rw [htail, headParse_eq (by omega) (by decide), if_pos (by decide), if_pos ⟨rfl, hm, hm5⟩]
      rfl

end

namespace Value

section
variable {u : Usize} {x : Value}

/-- The iterator behind a chunk that ends at `stop`. -/
def behindChunk (x : Value) (stop : Nat) : Value :=
  { x with pos := stop, flags := { x.flags with negativeInteger := false } }

theorem transfer_agrees {len offset : Nat} (hlen : x.buf.length < 2 ^ 31)
    (hpos : x.pos + offset ≤ x.buf.length) :
    if x.pos + offset + len ≤ x.buf.length then
      x.transferString u len offset = .ok (some (x.pos + offset, len), x.behindChunk (x.pos + offset + len))
    else x.transferString u len offset = fail .unexpectedEof := by
  by_cases hfit : x.pos + offset + len ≤ x.buf.length
  · rw [if_pos hfit]
    exact transferString_eq hlen hfit
  · have hmax := u.le_max
    have hread : ({ x with pos := x.pos + offset } : Value).canRead len = false := by
      rw [canRead, decide_eq_false_iff_not]
      change ¬ len ≤ x.buf.length - (x.pos + offset)
      omega
    rw [if_neg hfit, transferString, addUsize, if_pos (by omega)]
    simp only [bind, Except.bind, hread]
    rfl

theorem readBe_slice {buf : Bytes} {pos : Nat} {info : UInt8} (hfit : pos + argLen info ≤ buf.length)
    (hi : ¬ 27 < info) : (readBe (buf.slice pos (argLen info))).toNat = beNat (buf.slice pos (argLen info)) := by
  have hinfo : info.toNat ≤ 27 := by
    rw [UInt8.not_lt] at hi
    exact UInt8.le_iff_toNat_le.mp hi
  have hwidth : argLen info ≤ 2 ^ 3 := Nat.pow_le_pow_right (by decide) (by omega)
  have hlt := beNat_lt (buf.slice pos (argLen info))
  rw [length_slice hfit] at hlt
  have hpow : 256 ^ argLen info ≤ 256 ^ 8 := Nat.pow_le_pow_right (by decide) hwidth
  rw [readBe, UInt64.toNat_ofNat']
  exact Nat.mod_eq_of_lt (by omega)

/-- Both readers find the same chunk, or none. -/
theorem stringChunk_agrees (hlen : x.buf.length < 2 ^ 31)
    (hopen : (x.isLengthKnown && !x.flags.negativeInteger) = false)
    (hbyte : x.buf[x.pos]? ≠ some breakByte) :
    match Config.stringChunk u x.buf x.ty x.pos with
    | none => ∃ e, x.stringChunk u = fail e
    | some (start, len) => x.stringChunk u = .ok (some (start, len), x.behindChunk (start + len)) := by
  cases hd : x.buf[x.pos]? with
  | none =>
    simp only [Config.stringChunk, hd, Option.bind_eq_bind, Option.bind_none]
    refine ⟨.unexpectedEof, ?_⟩
    rw [stringChunk, hopen, hd]
    rfl
  | some d =>
    obtain ⟨hlt, -⟩ := List.getElem?_eq_some_iff.mp hd
    have hne : d ≠ breakByte := by
      intro heq
      exact hbyte (heq ▸ hd)
    simp only [Config.stringChunk, hd, Option.bind_eq_bind, Option.bind_some]
    rw [stringChunk, hopen, hd]
    simp only [Bool.false_eq_true, if_false, if_neg hne]
    by_cases hkind : d &&& 0xe0 ≠ x.ty
    · rw [if_pos hkind, if_pos hkind]
      exact ⟨_, rfl⟩
    · rw [if_neg hkind, if_neg hkind]
      -- behind the head of the chunk both take its body if it is there
      have hbody : ∀ len offset : Nat, x.pos + offset ≤ x.buf.length →
          match (if x.pos + offset + len ≤ x.buf.length then some (x.pos + offset, len) else none) with
          | none => ∃ e, x.transferString u len offset = fail e
          | some (start, n) =>
            x.transferString u len offset = .ok (some (start, n), x.behindChunk (start + n)) := by
        intro len offset hpos
        have htransfer := @transfer_agrees u x len offset hlen hpos
        by_cases hfit : x.pos + offset + len ≤ x.buf.length
        · rw [if_pos hfit] at htransfer ⊢
          exact htransfer
        · rw [if_neg hfit] at htransfer ⊢
          exact ⟨_, htransfer⟩
      by_cases hshort : d &&& 0x1f < 24
      · have hsmall : (d &&& 0x1f).toNat < 2 ^ 32 := by
          have hbound := (d &&& 0x1f).toNat_lt
          omega
        rw [chunkHead, if_pos hshort, if_pos hshort]
        simp only [Option.bind_some, u.tryFrom_of_lt hsmall]
        exact hbody _ 1 (by omega)
      · rw [chunkHead, if_neg hshort, if_neg hshort]
        by_cases h27 : 27 < d &&& 0x1f
        · rw [if_pos h27, if_pos h27]
          exact ⟨_, rfl⟩
        · rw [if_neg h27, if_neg h27]
          by_cases hread : x.pos + 1 + argLen (d &&& 0x1f) ≤ x.buf.length
          · have hcan : x.canRead (1 + argLen (d &&& 0x1f)) = true := by
              rw [canRead, decide_eq_true_eq]
              omega
            have hbytes : x.bytesAt u 1 = .ok (x.buf.drop (x.pos + 1)) := bytesAt_one (by omega)
            have hfirst : firstBytes (x.buf.drop (x.pos + 1)) (argLen (d &&& 0x1f)) =
                .ok (x.buf.slice (x.pos + 1) (argLen (d &&& 0x1f))) := by
              rw [firstBytes, if_pos (by rw [List.length_drop]; omega)]
              rfl
            rw [slice?_of_le hread, hcan]
            simp only [Option.map_some, Option.bind_some, Bool.not_true, Bool.false_eq_true, if_false, bind,
              Except.bind, hbytes, hfirst]
            have hvalue : (readBe (x.buf.slice (x.pos + 1) (argLen (d &&& 0x1f)))).toNat =
                beNat (x.buf.slice (x.pos + 1) (argLen (d &&& 0x1f))) := readBe_slice (by omega) h27
            rw [hvalue]
            cases u.tryFrom (beNat (x.buf.slice (x.pos + 1) (argLen (d &&& 0x1f)))) with
            | none => exact ⟨_, rfl⟩
            | some len =>
              rw [Nat.add_comm (argLen (d &&& 0x1f)) 1]
              exact hbody _ (1 + argLen (d &&& 0x1f)) (by omega)
          · have hcan : x.canRead (1 + argLen (d &&& 0x1f)) = false := by
              rw [canRead, decide_eq_false_iff_not]
              omega
            rw [slice?, if_neg hread, hcan]
            exact ⟨_, rfl⟩

theorem stringChunk_complete (hdone : (x.isLengthKnown && !x.flags.negativeInteger) = true) :
    x.stringChunk u = .ok (none, x) := by
  rw [stringChunk, hdone]
  rfl

theorem stringChunk_break (hopen : (x.isLengthKnown && !x.flags.negativeInteger) = false)
    (hbyte : x.buf[x.pos]? = some breakByte) : x.stringChunk u = .ok (none, x) := by
  rw [stringChunk, hopen, hbyte]
  rfl

end

section
variable {u : Usize} {v : Value} {halt : Halt}

theorem preparseArgument_halts {info : UInt8} (hpos : v.pos < 2 ^ 31)
    (h : (v.preparseArgument u info).2 = .error halt) : ∃ e, halt = .error e := by
  unfold preparseArgument at h
  by_cases hnone : needed info = 0
  · rw [if_pos hnone] at h
    cases h
  · rw [if_neg hnone] at h
    by_cases hread : v.canRead (needed info + 1) = true
    · rw [hread, if_neg (by decide)] at h
      rw [canRead, decide_eq_true_eq] at hread
      have hfirst : firstBytes (v.buf.drop (v.pos + 1)) (needed info) =
          .ok ((v.buf.drop (v.pos + 1)).take (needed info)) := by
        rw [firstBytes, if_pos (by rw [List.length_drop]; omega)]
      simp only [bytesAt_one hpos, bind, Except.bind, hfirst] at h
      split_ifs at h
    · rw [Bool.not_eq_true] at hread
      rw [hread] at h
      cases h
      exact ⟨_, rfl⟩

theorem preparseType_halts {descriptor : UInt8} (h : (v.preparseType descriptor).2 = .error halt) :
    ∃ e, halt = .error e := by
  simp only [preparseType] at h
  split_ifs at h
  cases h
  exact ⟨_, rfl⟩

theorem get_eq_error {c : Changed} (h : c.get = .error halt) : c.2 = .error halt := by
  obtain ⟨w, result⟩ := c
  cases result with
  | error e =>
    cases h
    rfl
  | ok _ => cases h

theorem andThen_error {c : Changed} {next : Value → Changed} (h : (c.andThen next).2 = .error halt) :
    c.2 = .error halt ∨ ∃ w, c = (w, .ok ()) ∧ (next w).2 = .error halt := by
  obtain ⟨w, result⟩ := c
  cases result with
  | error e => exact .inl h
  | ok _ => exact .inr ⟨w, rfl, h⟩

/-- A head is read or refused. -/
theorem preparse_halts (hpos : v.pos < 2 ^ 31) (h : (v.preparseValue u).2 = .error halt) :
    ∃ e, halt = .error e := by
  unfold preparseValue at h
  cases hd : v.buf[v.pos]? with
  | none =>
    simp only [hd] at h
    cases h
    exact ⟨_, rfl⟩
  | some d =>
    simp only [hd] at h
    by_cases h27 : 27 < d &&& 0x1f
    · rw [if_pos h27] at h
      split_ifs at h
      all_goals
        cases h
        exact ⟨_, rfl⟩
    · rw [if_neg h27] at h
      rcases andThen_error h with hargument | ⟨w, -, htype⟩
      · exact preparseArgument_halts (by exact hpos) hargument
      · exact preparseType_halts htype

end

/-- A buffer after the copies that were made to it. -/
def written (out : Bytes) (copies : List (Nat × Bytes)) : Bytes :=
  copies.foldl (fun out copy => out.copyAt copy.1 copy.2) out

/-- The two loops at the same chunk. -/
structure Alike (slot : Bytes) (kind : UInt8) (chunked : Bool) (buflen : Nat) (s : Copying) (first : Bool)
    (c : Chunking) : Prop where
  buf : c.next.buf = slot
  ty : c.next.ty = kind
  unknownLength : c.next.flags.unknownLength = chunked
  first : c.next.flags.negativeInteger = first
  pos : c.next.pos = s.pos
  total : c.total = s.total
  all : c.all = s.fits
  out : s.out.length = buflen
  inside : s.pos ≤ slot.length

section
variable {u : Usize} {slot : Bytes} {kind : UInt8} {chunked first : Bool} {s : Copying}

theorem copyChunks_none (hdone : ¬ (chunked = false ∧ first = false)) (hbyte : slot[s.pos]? ≠ some 0xff)
    (h : Config.stringChunk u slot kind s.pos = none) :
    copyChunks u slot kind chunked s first = (false, s) := by
  rw [copyChunks, if_neg hdone, if_neg hbyte]
  split
  · rfl
  · next hsome => rw [h] at hsome; cases hsome

theorem copyChunks_some {start len : Nat} (hdone : ¬ (chunked = false ∧ first = false))
    (hbyte : slot[s.pos]? ≠ some 0xff) (h : Config.stringChunk u slot kind s.pos = some (start, len)) :
    copyChunks u slot kind chunked s first =
      if u.max < s.total + len then (false, s)
      else if s.fits ∧ s.total + len ≤ s.out.length then
        copyChunks u slot kind chunked
          ⟨start + len, s.total + len, true, s.out.copyAt s.total (slot.slice start len)⟩ false
      else copyChunks u slot kind chunked ⟨start + len, s.total + len, false, s.out⟩ false := by
  rw [copyChunks, if_neg hdone, if_neg hbyte]
  split
  · next hnone => rw [h] at hnone; cases hnone
  · next hsome =>
    rw [h] at hsome
    cases hsome
    rfl

end

theorem chunks_agree {u : Usize} {slot : Bytes} {kind : UInt8} {chunked : Bool} {buflen : Nat}
    (hlen : slot.length < 2 ^ 31) (fuel : Nat) (s : Copying) (first : Bool) (c : Chunking)
    (halike : Alike slot kind chunked buflen s first c) (hfuel : slot.length - s.pos < fuel) :
    match iterateChunks u buflen fuel c with
    | (copies, .ok c') => ∃ s' first', copyChunks u slot kind chunked s first = (true, s') ∧
        s'.out = written s.out copies ∧ Alike slot kind chunked buflen s' first' c' ∧
        c'.next.remaining = c.next.remaining
    | (copies, .error h) => ∃ s' e, copyChunks u slot kind chunked s first = (false, s') ∧
        s'.out = written s.out copies ∧ h = .error e := by
  induction fuel generalizing s first c with
  | zero => omega
  | succ fuel ih =>
    have hknown : (c.next.isLengthKnown && !c.next.flags.negativeInteger) = true ↔
        chunked = false ∧ first = false := by
      rw [isLengthKnown, halike.unknownLength, halike.first]
      cases chunked <;> cases first <;> simp
    by_cases hdone : chunked = false ∧ first = false
    · rw [iterateChunks, stringChunk_complete (hknown.mpr hdone)]
      refine ⟨s, first, ?_, rfl, halike, rfl⟩
      rw [copyChunks, if_pos hdone]
    · have hopen : (c.next.isLengthKnown && !c.next.flags.negativeInteger) = false := by
        rw [Bool.eq_false_iff]
        exact mt hknown.mp hdone
      by_cases hbyte : slot[s.pos]? = some 0xff
      · have hbreak : c.next.buf[c.next.pos]? = some breakByte := by
          rw [halike.buf, halike.pos]
          exact hbyte
        rw [iterateChunks, stringChunk_break hopen hbreak]
        refine ⟨s, first, ?_, rfl, halike, rfl⟩
        rw [copyChunks, if_neg hdone, if_pos hbyte]
      · have hnext := stringChunk_agrees (u := u) (halike.buf ▸ hlen) hopen (by
          rw [halike.buf, halike.pos]
          exact hbyte)
        rw [halike.buf, halike.pos, halike.ty] at hnext
        cases hchunk : Config.stringChunk u slot kind s.pos with
        | none =>
          rw [hchunk] at hnext
          obtain ⟨e, he⟩ := hnext
          rw [iterateChunks, he]
          refine ⟨s, e, ?_, rfl, rfl⟩
          exact copyChunks_none hdone hbyte hchunk
        | some range =>
          obtain ⟨start, len⟩ := range
          rw [hchunk] at hnext
          obtain ⟨hstart, hfit⟩ := stringChunk_bounds hchunk
          have hcopy := copyChunks_some hdone hbyte hchunk
          rw [iterateChunks, hnext, hcopy, halike.total, halike.all]
          by_cases htoo : u.max < s.total + len
          · simp only [if_pos htoo]
            exact ⟨s, _, rfl, rfl, rfl⟩
          · simp only [if_neg htoo]
            -- the rest of the loop, from the two iterators behind the chunk
            have hrest : ∀ (fits : Bool) (out : Bytes), out.length = buflen →
                Alike slot kind chunked buflen ⟨start + len, s.total + len, fits, out⟩ false
                  ⟨c.next.behindChunk (start + len), s.total + len, fits⟩ := fun fits out hout =>
              ⟨halike.buf, halike.ty, halike.unknownLength, rfl, rfl, rfl, rfl, hout, hfit⟩
            have hless : slot.length - (start + len) < fuel := by omega
            by_cases hroom : s.fits = true ∧ s.total + len ≤ buflen
            · have hwrite : (s.fits && decide (s.total + len ≤ buflen)) = true := by
                rw [Bool.and_eq_true, decide_eq_true_eq]
                exact hroom
              have hlength : (slot.slice start len).length = len := length_slice hfit
              have hcopied := ih ⟨start + len, s.total + len, true, s.out.copyAt s.total (slot.slice start len)⟩
                false _ (hrest true _ (by
                  rw [length_copyAt _ _ _ (by rw [hlength, halike.out]; exact hroom.2)]
                  exact halike.out)) hless
              rw [halike.out, if_pos hroom]
              simp only [hwrite, if_true, halike.buf, slice?_of_le hfit]
              split at hcopied
              · next copies c' hloop =>
                simp only [hloop]
                exact hcopied
              · next copies e hloop =>
                simp only [hloop]
                exact hcopied
            · have hskip : (s.fits && decide (s.total + len ≤ buflen)) = false := by
                rw [Bool.eq_false_iff, Ne, Bool.and_eq_true, decide_eq_true_eq]
                exact hroom
              have hskipped := ih ⟨start + len, s.total + len, false, s.out⟩ false _
                (hrest false _ halike.out) hless
              rw [halike.out, if_neg hroom]
              simp only [hskip, Bool.false_eq_true, if_false]
              exact hskipped

theorem copyString_loop {u : Usize} {v : Value} {buflen pos : Nat}
    (hstring : (!v.isTextString && !v.isByteString) = false)
    (hstart : (if v.isLengthKnown then .ok v.pos else addUsize u v.pos 1) = Except.ok pos) :
    v.copyString u buflen =
      match iterateChunks u buflen (v.buf.length + 1) ⟨v.beforeChunks pos, 0, true⟩ with
      | (copies, .error h) => (copies, .error h)
      | (copies, .ok c) => (copies, (finishString u buflen c).map Prod.fst) := by
  simp only [copyString, iterateString, hstring, Bool.false_eq_true, if_false, hstart]
  rw [beforeChunks]
  generalize iterateChunks u buflen (v.buf.length + 1) _ = outcome
  obtain ⟨copies, result⟩ := outcome
  cases result with
  | error h => rfl
  | ok c => rfl

/-- The end of the parser's copy, of a string that nothing follows. -/
theorem finishString_only {u : Usize} {c : Chunking} (buflen : Nat) (hty : c.next.ty ≠ tag)
    (hr : c.next.remaining = 1) (hpos : c.next.pos < 2 ^ 31) :
    ∃ next, finishString u buflen c =
      .ok (⟨c.total, c.all, c.all && decide (c.total < buflen)⟩, next) := by
  cases hunknown : c.next.flags.unknownLength with
  | false =>
    obtain ⟨next, hnext⟩ := next_ended (u := u) hty hr
    refine ⟨next, ?_⟩
    rw [finishString_known hunknown, hnext]
    rfl
  | true =>
    obtain ⟨next, hnext⟩ := next_ended (u := u) (w := { c.next with pos := c.next.pos + 1 }) hty hr
    refine ⟨next, ?_⟩
    rw [finishString_unknown hunknown (by omega), hnext]
    rfl

end Value

/-- The parser's copy of the string that a slice starts with. -/
def parseAndCopy (u : Usize) (bs : Bytes) (buflen : Nat) : List (Nat × Bytes) × Run Copied :=
  match Value.parse u bs with
  | .error h => ([], .error h)
  | .ok v => v.copyString u buflen

/-- Whether the config store's copy into `out` came to what the parser's came to. -/
def SameCopy (out : Bytes) (parsed : List (Nat × Bytes) × Run Copied)
    (stored : Except CopyError Nat × Bytes) : Prop :=
  match parsed with
  | (copies, .ok copied) =>
    stored = (if copied.all then .ok copied.total else .error (.tooSmall copied.total),
      if copied.nul then (Value.written out copies).copyAt copied.total [0] else Value.written out copies)
  | (copies, .error halt) =>
    stored = (.error .refused, Value.written out copies) ∧ ∃ e, halt = .error e

theorem copyString_agrees {u : Usize} {bs : Bytes} {v : Value} {major info : Nat} {argument : Bytes}
    (hlen : bs.length < 2 ^ 31) (hfirst : Value.First bs v) (hon : On v major info argument)
    (hm : major = 2 ∨ major = 3) (out : Bytes) :
    SameCopy out (v.copyString u out.length) (Config.copyString u bs out) := by
  have hbytes := hon.pos_lt
  have hhead := hon.head
  have hi := hon.head.bounds.2.1
  obtain ⟨-, hpos, rfl, hremaining⟩ := hfirst
  rw [hpos, List.drop_zero] at hhead
  have hparse := headParse_iff.mpr ⟨major, info, argument, hhead, rfl⟩
  have hty : v.ty = UInt8.ofNat (32 * major) := (hon.ty_iff (by omega) (by omega)).mpr rfl
  have hkind : UInt8.ofNat major <<< 5 = v.ty := by
    rw [hty]
    rcases hm with rfl | rfl <;> rfl
  have hnotag : v.ty ≠ tag := by
    rw [Ne, hon.tag_iff]
    omega
  have hknown : Head.isLengthKnown ⟨UInt8.ofNat major, UInt8.ofNat info, storedArgument info argument⟩ =
      v.isLengthKnown := by
    rw [Head.isLengthKnown, Value.isLengthKnown, hon.unknownLength, ← decide_not, decide_eq_decide]
    exact not_congr (ofNat_eq_iff (by omega) (by decide))
  obtain ⟨pos, hstored, hstart, hinside⟩ : ∃ pos, (if (!v.isLengthKnown) = true then 1 else 0) = pos ∧
      (if v.isLengthKnown then .ok v.pos else addUsize u v.pos 1) = Except.ok pos ∧ pos ≤ v.buf.length := by
    have hmax := u.le_max
    rw [hpos]
    cases v.isLengthKnown with
    | true => exact ⟨0, rfl, rfl, Nat.zero_le _⟩
    | false =>
      refine ⟨1, rfl, ?_, by omega⟩
      rw [if_neg (by decide), addUsize, if_pos (by omega)]
  have hchunks := @Value.chunks_agree u v.buf v.ty (!v.isLengthKnown) out.length hlen (v.buf.length + 1) ⟨pos, 0, true, out⟩ true
    ⟨v.beforeChunks pos, 0, true⟩
    ⟨rfl, rfl, (Bool.not_not v.flags.unknownLength).symm, rfl, rfl, rfl, rfl, rfl, hinside⟩ (by omega)
  simp only [Config.copyString, hparse, hknown, hkind, hstored]
  rw [Value.copyString_loop (hon.string_iff.mpr hm) hstart]
  generalize Value.iterateChunks u out.length (v.buf.length + 1) ⟨v.beforeChunks pos, 0, true⟩ = loop
    at hchunks ⊢
  obtain ⟨copies, result⟩ := loop
  cases result with
  | error halt =>
    obtain ⟨s, e, hcopy, hout, rfl⟩ := hchunks
    rw [hcopy]
    exact ⟨congrArg (Prod.mk _) hout, e, rfl⟩
  | ok c =>
    obtain ⟨s, first, hcopy, hout, halike, hcounted⟩ := hchunks
    have hinsidec := halike.inside
    have hposc := halike.pos
    obtain ⟨next, hfinish⟩ := Value.finishString_only (u := u) out.length
      (by rw [halike.ty]; exact hnotag) (hcounted.trans hremaining) (by omega)
    rw [hcopy]
    simp only [hfinish, SameCopy, Except.map]
    rw [halike.total, halike.all, ← halike.out, ← hout]
    cases s.fits with
    | false => rfl
    | true =>
      by_cases hroom : s.total < s.out.length
      · simp [hroom]
      · simp [hroom]

/-- The major type of the item an iterator is on. -/
def Value.major (v : Value) : Nat :=
  if v.ty = integer then v.flags.negativeInteger.toNat else v.ty.toNat / 32

theorem On.major_eq {v : Value} {major info : Nat} {argument : Bytes} (h : On v major info argument) :
    v.major = major := by
  have hall : ∀ m : Fin 8, ∀ i : Fin 32,
      (if typeOf m.val i.val = integer then (decide (m.val = 1)).toNat else (typeOf m.val i.val).toNat / 32) =
        m.val := by decide +kernel
  obtain ⟨hm, hi, -⟩ := h.head.bounds
  have hnegative : v.flags.negativeInteger = decide (major = 1) :=
    (congrArg (fun v : Value => v.flags.negativeInteger) h.self).symm
  rw [Value.major, h.ty, hnegative]
  exact hall ⟨major, hm⟩ ⟨info, hi⟩

theorem On.first_byte {v : Value} {major info : Nat} {argument : Bytes} (h : On v major info argument)
    (hpos : v.pos = 0) : v.buf[0]? = some (Cbor.initial major info) := by
  obtain ⟨rest, hinitial⟩ := h.head.initial
  rw [hpos, List.drop_zero] at hinitial
  rw [hinitial]
  rfl

theorem parses_alike (u : Usize) (bs : Bytes) :
    (∃ head, Head.parse bs = some head) ↔ ∃ v, Value.parse u bs = .ok v := by
  constructor
  · rintro ⟨head, hhead⟩
    obtain ⟨major, info, argument, hat, -⟩ := headParse_iff.mp hhead
    obtain ⟨v, hv⟩ := Value.preparse_of_head (u := u) (v := ⟨bs, 0, 1, .none, invalid, 0⟩)
      (show (0 : Nat) < 2 ^ 31 by decide) hat
    exact ⟨v, by rw [Value.parse, hv]; rfl⟩
  · rintro ⟨v, hv⟩
    obtain ⟨⟨major, info, argument, hon⟩, hpos, rfl, -⟩ := Value.parse_first hv
    have hat := hon.head
    rw [hpos, List.drop_zero] at hat
    exact ⟨_, headParse_iff.mpr ⟨major, info, argument, hat, rfl⟩⟩

theorem heads_agree {u : Usize} {bs : Bytes} {head : Head} {v : Value} (hlen : bs.length < 2 ^ 31)
    (hhead : Head.parse bs = some head) (hv : Value.parse u bs = .ok v) :
    v.major = head.major.toNat ∧ (bs[0]? ≠ some 0xf4 → head.info ≠ 31 →
      head.arg < 2 ^ 64 ∧ v.extract u = .ok (UInt64.ofNat head.arg)) := by
  obtain ⟨⟨major, info, argument, hon⟩, hpos, rfl, -⟩ := Value.parse_first hv
  obtain ⟨hm, hi, hform, -⟩ := hon.head.bounds
  have hat := hon.head
  rw [hpos, List.drop_zero] at hat
  have hsame := hhead.symm.trans (headParse_iff.mpr ⟨major, info, argument, hat, rfl⟩)
  cases hsame
  refine ⟨?_, ?_⟩
  · rw [hon.major_eq]
    exact (Nat.mod_eq_of_lt (by omega)).symm
  · intro hfalse h31
    have hne : info ≠ 31 := fun h => h31 (congrArg UInt8.ofNat h)
    have hlt := hon.pos_lt
    obtain ⟨x, hx, harg⟩ := Value.extract_on (u := u) hon (by omega) (by omega)
    have hvalue : storedArgument info argument = x.toNat := by
      rw [storedArgument, if_neg hne, harg]
      rintro ⟨rfl, rfl⟩
      exact hfalse (hon.first_byte hpos)
    rw [hvalue, hx, UInt64.ofNat_toNat]
    exact ⟨x.toNat_lt, rfl⟩

theorem copies_agree {u : Usize} {bs : Bytes} {byte : UInt8} (hlen : bs.length < 2 ^ 31)
    (hbyte : bs[0]? = some byte) (hstring : byte.toNat / 32 = 2 ∨ byte.toNat / 32 = 3) (out : Bytes) :
    SameCopy out (parseAndCopy u bs out.length) (Config.copyString u bs out) := by
  cases hv : Value.parse u bs with
  | error halt =>
    have hnone : Head.parse bs = none := by
      rw [Option.eq_none_iff_forall_ne_some]
      intro head hhead
      obtain ⟨v, hok⟩ := (parses_alike u bs).mp ⟨head, hhead⟩
      rw [hv] at hok
      cases hok
    rw [parseAndCopy, hv, Config.copyString, hnone]
    exact ⟨rfl, Value.preparse_halts (show (0 : Nat) < 2 ^ 31 by decide) (Value.get_eq_error hv)⟩
  | ok v =>
    have hfirst := Value.parse_first hv
    obtain ⟨major, info, argument, hon⟩ := hfirst.on
    obtain ⟨hm, hi, -⟩ := hon.head.bounds
    have hinitial := hon.first_byte hfirst.pos
    rw [hfirst.buf, hbyte] at hinitial
    cases hinitial
    rw [parseAndCopy, hv]
    refine copyString_agrees hlen hfirst hon ?_ out
    change (32 * major + info) % 256 / 32 = 2 ∨ (32 * major + info) % 256 / 32 = 3 at hstring
    omega

/-- The config store's reader of heads and strings is the parser's. -/
theorem readers_agree (u : Usize) (bs : Bytes) (hlen : bs.length < 2 ^ 31) :
    ((∃ head, Head.parse bs = some head) ↔ ∃ v, Value.parse u bs = .ok v) ∧
    (∀ head v, Head.parse bs = some head → Value.parse u bs = .ok v →
      v.major = head.major.toNat ∧ (bs[0]? ≠ some 0xf4 → head.info ≠ 31 →
        head.arg < 2 ^ 64 ∧ v.extract u = .ok (UInt64.ofNat head.arg))) ∧
    (∀ byte, bs[0]? = some byte → byte.toNat / 32 = 2 ∨ byte.toNat / 32 = 3 → ∀ out,
      SameCopy out (parseAndCopy u bs out.length) (Config.copyString u bs out)) :=
  ⟨parses_alike u bs, fun _ _ hhead hv => heads_agree hlen hhead hv,
    fun _ hbyte hstring out => copies_agree hlen hbyte hstring out⟩

/-- Two chunks of a text string. -/
theorem readers_agree_on_chunks :
    ((∃ head, Head.parse [0x7f, 0x61, 0x61, 0x61, 0x62, 0xff] = some head) ↔
      ∃ v, Value.parse .bits32 [0x7f, 0x61, 0x61, 0x61, 0x62, 0xff] = .ok v) ∧
    (∀ head v, Head.parse [0x7f, 0x61, 0x61, 0x61, 0x62, 0xff] = some head →
      Value.parse .bits32 [0x7f, 0x61, 0x61, 0x61, 0x62, 0xff] = .ok v →
      v.major = head.major.toNat ∧
      (([0x7f, 0x61, 0x61, 0x61, 0x62, 0xff] : Bytes)[0]? ≠ some 0xf4 → head.info ≠ 31 →
        head.arg < 2 ^ 64 ∧ v.extract .bits32 = .ok (UInt64.ofNat head.arg))) ∧
    (∀ byte : UInt8, ([0x7f, 0x61, 0x61, 0x61, 0x62, 0xff] : Bytes)[0]? = some byte →
      byte.toNat / 32 = 2 ∨ byte.toNat / 32 = 3 → ∀ out,
      SameCopy out (parseAndCopy .bits32 [0x7f, 0x61, 0x61, 0x61, 0x62, 0xff] out.length)
        (Config.copyString .bits32 [0x7f, 0x61, 0x61, 0x61, 0x62, 0xff] out)) :=
  readers_agree .bits32 [0x7f, 0x61, 0x61, 0x61, 0x62, 0xff] (by decide)

end Bristlemouth.Parser
