import Bristlemouth.Lib.Ends
import Bristlemouth.Parser.Accepts
import Bristlemouth.Parser.TwoReaders

/-!
# Bytes nobody vouches for

A call on an iterator that was come by in the ordinary way ends, and with a value or an error of its own:
no index leaves the buffer, no offset overflows, and no loop goes on for good. Whatever is stepped over is
not empty.
-/

set_option autoImplicit false

namespace Bristlemouth.Parser

open Bytes Config

/-- An error that the code returns. -/
def Halt.Returned : Halt → Prop
  | .error _ => True
  | .panic => False
  | .diverge => False

abbrev Returns {α : Type} (post : α → Prop) (r : Run α) : Prop := Ends Halt.Returned post r

theorem Halt.returned_of_exists {h : Halt} (he : ∃ e, h = .error e) : h.Returned := by
  obtain ⟨e, rfl⟩ := he
  trivial

/-- An iterator behind the last item of its container. -/
structure Behind (v : Value) : Prop where
  remaining : v.remaining = 0
  ty : v.ty = invalid
  pos : v.pos ≤ v.buf.length
  broken : v.flags.unknownLength = true → v.pos < v.buf.length

/-- An iterator of a buffer that is not too long: on an item, or behind the last one. -/
structure Sound (v : Value) : Prop where
  short : v.buf.length < 2 ^ 31
  place : (∃ major info argument, On v major info argument) ∨ Behind v

namespace Sound

variable {v : Value}

theorem pos_le (h : Sound v) : v.pos ≤ v.buf.length := by
  rcases h.place with ⟨major, info, argument, hon⟩ | hbehind
  · exact Nat.le_of_lt hon.pos_lt
  · exact hbehind.pos

theorem pos_lt (h : Sound v) : v.pos < 2 ^ 31 := Nat.lt_of_le_of_lt h.pos_le h.short

theorem on (h : Sound v) (hty : v.ty ≠ invalid) : ∃ major info argument, On v major info argument := by
  rcases h.place with hon | hbehind
  · exact hon
  · exact absurd hbehind.ty hty

theorem on_of_live (h : Sound v) (hlive : v.remaining ≠ 0) :
    ∃ major info argument, On v major info argument := by
  rcases h.place with hon | hbehind
  · exact hon
  · exact absurd hbehind.remaining hlive

theorem behind (h : Sound v) (hty : v.ty = invalid) : Behind v := by
  rcases h.place with ⟨major, info, argument, hon⟩ | hbehind
  · exact absurd hty hon.valid
  · exact hbehind

end Sound

/-- A head is within the buffer. -/
theorem On.head_le {v : Value} {major info : Nat} {argument : Bytes} (hon : On v major info argument) :
    v.pos + (1 + argument.length) ≤ v.buf.length := by
  have hlt := hon.pos_lt
  cases hon.head with
  | unbounded hm hm5 htail =>
    rw [List.length_nil]
    omega
  | definite hm hi hargument htail hwide =>
    have htotal := congrArg List.length htail
    rw [List.length_drop, List.length_cons, List.length_append] at htotal
    omega

namespace Value

section
variable {u : Usize} {v w : Value}

theorem returns_get {c : Changed} {post : Value → Prop} (hok : ∀ w, c = (w, .ok ()) → post w)
    (herror : ∀ halt, c.2 = .error halt → ∃ e, halt = .error e) : Returns post c.get := by
  apply Ends.intro
  · intro w hw
    exact hok w (get_eq_ok hw)
  · intro halt hhalt
    exact Halt.returned_of_exists (herror halt (get_eq_error hhalt))

/-! ### Heads -/

/-- What a step to the next item leaves. -/
structure Follows (w v : Value) : Prop where
  sound : Sound v
  buf : v.buf = w.buf
  pos : v.pos = w.pos

theorem preparse_returns (hshort : w.buf.length < 2 ^ 31) (hpos : w.pos ≤ w.buf.length) :
    Returns (Follows w) (w.preparseValue u).get := by
  have hlt : w.pos < 2 ^ 31 := Nat.lt_of_le_of_lt hpos hshort
  apply returns_get
  · intro v hv
    obtain ⟨hp, hkept, hon⟩ := preparse_on hlt hv
    refine ⟨⟨?_, .inl hon⟩, hkept.buf, hp⟩
    rw [hkept.buf]
    exact hshort
  · intro halt hhalt
    exact preparse_halts hlt hhalt

theorem nodecrement_returns (hshort : w.buf.length < 2 ^ 31) (hpos : w.pos ≤ w.buf.length) :
    Returns (Follows w) (w.preparseNextValueNodecrement u).get := by
  by_cases hbreak : w.remaining = unbounded ∧ w.buf[w.pos]? = some breakByte
  · rw [preparseNextValueNodecrement, if_pos hbreak]
    by_cases hstop : w.flags.containerIsMap ∧ w.flags.nextIsMapKey ∨ w.ty = tag
    · rw [if_pos hstop]
      trivial
    · rw [if_neg hstop]
      obtain ⟨hlt, -⟩ := List.getElem?_eq_some_iff.mp hbreak.2
      exact ⟨⟨hshort, .inr ⟨rfl, rfl, hpos, fun _ => hlt⟩⟩, rfl, rfl⟩
  · rw [preparseNextValueNodecrement, if_neg hbreak]
    exact preparse_returns hshort hpos

theorem next_returns (hshort : w.buf.length < 2 ^ 31) (hpos : w.pos ≤ w.buf.length) :
    Returns (Follows w) (w.preparseNextValue u).get := by
  by_cases hty : w.ty = tag
  · rw [preparseNextValue, if_pos hty]
    exact nodecrement_returns hshort hpos
  · have hall : ∀ r : UInt32, Returns (Follows w) (Changed.get
        (let v := { w with remaining := r }
        if v.remaining = 0 then
          ({ v with ty := invalid, flags := { v.flags with unknownLength := false } }, .ok ())
        else { v with flags := { v.flags with nextIsMapKey := !v.flags.nextIsMapKey } }.preparseNextValueNodecrement
          u)) := by
      intro r
      by_cases hzero : r = 0
      · simp only [hzero, if_true]
        exact ⟨⟨hshort, .inr ⟨rfl, rfl, hpos, fun h => absurd h Bool.false_ne_true⟩⟩, rfl, rfl⟩
      · simp only [hzero, if_false]
        apply (nodecrement_returns (u := u) _ _).mono
        · intro v hv
          exact ⟨hv.sound, hv.buf, hv.pos⟩
        · exact hshort
        · exact hpos
    rw [preparseNextValue, if_neg hty]
    by_cases hopen : w.remaining = unbounded
    · simp only [if_pos hopen]
      exact hall w.remaining
    · simp only [if_neg hopen]
      exact hall (w.remaining - 1)

theorem parse_returns {buf : Bytes} (hshort : buf.length < 2 ^ 31) :
    Returns (fun v => Sound v ∧ v.buf = buf ∧ v.pos = 0) (parse u buf) :=
  (preparse_returns (w := ⟨buf, 0, 1, .none, invalid, 0⟩) hshort (Nat.zero_le _)).mono
    fun _ h => ⟨h.sound, h.buf, h.pos⟩

/-- A step behind `n` bytes leaves the iterator that much further on. -/
theorem next_returns_of_moved {x : Value} {n : Nat} (hshort : v.buf.length < 2 ^ 31) (hn : 0 < n)
    (hmoved : Moved v x n) (hfit : v.pos + n ≤ v.buf.length) :
    Returns (fun w => Sound w ∧ w.buf = v.buf ∧ v.pos < w.pos) (x.preparseNextValue u).get := by
  have hbuf := hmoved.buf
  have hpos := hmoved.pos
  apply (next_returns (u := u) (hbuf ▸ hshort) (by rw [hbuf, hpos]; exact hfit)).mono
  intro w hw
  refine ⟨hw.sound, hw.buf.trans hbuf, ?_⟩
  rw [hw.pos]
  omega

/-! ### Arguments -/

/-- The argument of a head is there to be read. -/
theorem extract_ok (h : Sound v) (hty : v.ty ≠ invalid) : ∃ n, v.extract u = .ok n := by
  obtain ⟨major, info, argument, hon⟩ := h.on hty
  rcases On.form hon with ⟨hi | hi, -⟩
  · obtain ⟨x, hx, -⟩ := extract_on (u := u) hon hi h.pos_lt
    exact ⟨x, hx⟩
  · have hlarge : v.flags.integerTooLarge = decide (info = 26 ∨ info = 27) :=
      (congrArg (fun v : Value => v.flags.integerTooLarge) hon.self).symm
    rw [extract, hlarge, hi]
    exact ⟨_, rfl⟩

theorem extract_returns (h : Sound v) (hty : v.ty ≠ invalid) : Returns (fun _ => True) (v.extract u) := by
  obtain ⟨n, hn⟩ := extract_ok (u := u) h hty
  rw [hn]
  trivial

theorem lengthOf_returns (h : Sound v) (hty : v.ty ≠ invalid) :
    Returns (fun _ => True) (if !v.isLengthKnown then fail .unknownLength
      else do
        match u.tryFrom (← v.extract u).toNat with
        | none => fail .dataTooLarge
        | some len => return len : Run Nat) := by
  split_ifs
  · trivial
  · apply (extract_returns (u := u) h hty).bind
    intro n _
    cases u.tryFrom n.toNat with
    | none => trivial
    | some len => trivial

theorem string_ty (hkind : ¬ (!v.isTextString && !v.isByteString) = true) :
    v.ty = textString ∨ v.ty = byteString := by
  simp only [isTextString, isByteString, Bool.and_eq_true, Bool.not_eq_true', decide_eq_false_iff_not] at hkind
  tauto

theorem stringLength_returns (h : Sound v) : Returns (fun _ => True) (v.stringLength u) := by
  rw [stringLength]
  by_cases hkind : (!v.isTextString && !v.isByteString) = true
  · rw [if_pos hkind]
    trivial
  · rw [if_neg hkind]
    apply lengthOf_returns h
    rcases string_ty hkind with hty | hty <;> rw [hty] <;> decide

theorem mapLength_returns (h : Sound v) : Returns (fun _ => True) (v.mapLength u) := by
  rw [mapLength]
  by_cases hkind : (!v.isMap) = true
  · rw [if_pos hkind]
    trivial
  · rw [if_neg hkind]
    apply lengthOf_returns h
    have hty : v.ty = map := by simpa [isMap] using hkind
    rw [hty]
    decide

theorem getInt64_returns (h : Sound v) (hty : v.ty ≠ invalid) : Returns (fun _ => True) (v.getInt64 u) :=
  (extract_returns h hty).bind fun _ _ => trivial

theorem getFloat_returns (h : Sound v) (hty : v.ty ≠ invalid) : Returns (fun _ => True) (v.getFloat u) := by
  rw [getFloat]
  split_ifs
  · trivial
  · exact (extract_returns h hty).bind fun _ _ => trivial

/-! ### Strings -/

/-- The chunks are copied to where there is room for them. -/
def CopiesFit (buflen : Nat) (copies : List (Nat × Bytes)) : Prop :=
  ∀ copy ∈ copies, copy.1 + copy.2.length ≤ buflen

theorem transferString_returns {len offset : Nat} (hshort : v.buf.length < 2 ^ 31)
    (hhead : v.pos + offset ≤ v.buf.length) : Returns (fun _ => True) (v.transferString u len offset) := by
  by_cases hfit : v.pos + offset + len ≤ v.buf.length
  · rw [transferString_eq hshort hfit]
    trivial
  · have hmax := u.le_max
    have hread : ({ v with pos := v.pos + offset } : Value).canRead len = false := by
      rw [canRead, decide_eq_false_iff_not]
      change ¬ len ≤ v.buf.length - (v.pos + offset)
      omega
    simp only [transferString, addUsize, bind, Except.bind]
    rw [if_pos (by omega)]
    simp only [hread, Bool.not_false, if_true]
    trivial

theorem stringChunk_returns (hshort : v.buf.length < 2 ^ 31) : Returns (fun _ => True) (v.stringChunk u) := by
  by_cases hopen : (v.isLengthKnown && !v.flags.negativeInteger) = true
  · rw [stringChunk, if_pos hopen]
    trivial
  · cases hd : v.buf[v.pos]? with
    | none =>
      rw [stringChunk, if_neg hopen, hd]
      trivial
    | some d =>
      obtain ⟨hlt, -⟩ := List.getElem?_eq_some_iff.mp hd
      obtain ⟨major, info, hm, hi, rfl⟩ := exists_initial d
      simp only [stringChunk, if_neg hopen, hd, initial_info hi]
      by_cases h27 : info ≤ 27
      · obtain ⟨hnat, -, hnot, h24⟩ := info_tests h27
        by_cases hshortHead : info < 24
        · rw [if_pos (h24.mpr hshortHead)]
          split_ifs
          · trivial
          · trivial
          · exact transferString_returns hshort (by omega)
        · rw [if_neg (mt h24.mp hshortHead), if_neg hnot]
          split_ifs with hbreak hkind hread
          · trivial
          · trivial
          · trivial
          · rw [Bool.not_eq_true', Bool.not_eq_false, canRead, decide_eq_true_eq] at hread
            have hfirst : firstBytes (v.buf.drop (v.pos + 1)) (argLen (UInt8.ofNat info)) =
                .ok ((v.buf.drop (v.pos + 1)).take (argLen (UInt8.ofNat info))) := by
              rw [firstBytes, if_pos]
              rw [List.length_drop]
              omega
            simp only [bytesAt_one (u := u) (show v.pos < 2 ^ 31 by omega), bind, Except.bind, hfirst]
            cases u.tryFrom (readBe ((v.buf.drop (v.pos + 1)).take (argLen (UInt8.ofNat info)))).toNat with
            | none => trivial
            | some len => exact transferString_returns hshort (by omega)
      · have hhigh : (27 : UInt8) < UInt8.ofNat info := by
          rw [UInt8.lt_iff_toNat_lt, UInt8.toNat_ofNat']
          change 27 < info % 256
          omega
        have hlow : ¬ UInt8.ofNat info < 24 := by
          rw [UInt8.lt_iff_toNat_lt, UInt8.toNat_ofNat']
          change ¬ info % 256 < 24
          omega
        rw [if_neg hlow, if_pos hhigh]
        split_ifs
        all_goals trivial

/-- What an iterator over chunks keeps: its type, and a place in the buffer. -/
structure Walking (major : Nat) (v : Value) (s : Chunking) : Prop where
  buf : s.next.buf = v.buf
  ty : s.next.ty = UInt8.ofNat (32 * major)
  behind : v.pos ≤ s.next.pos
  pos : s.next.pos ≤ s.next.buf.length

theorem iterateChunks_returns {major : Nat} (hm : major = 2 ∨ major = 3) (hshort : v.buf.length < 2 ^ 31)
    (buflen fuel : Nat) (s : Chunking) (h : Walking major v s) (hfuel : s.next.buf.length < s.next.pos + fuel) :
    CopiesFit buflen (iterateChunks u buflen fuel s).1 ∧
    Returns (fun t => Walking major v t ∧ (t.next.flags.unknownLength = true → t.next.pos < t.next.buf.length))
      (iterateChunks u buflen fuel s).2 := by
  induction fuel generalizing s with
  | zero =>
    have hpos := h.pos
    omega
  | succ fuel ih =>
    have hlen : s.next.buf.length < 2 ^ 31 := h.buf ▸ hshort
    have hmax := u.le_max
    cases hchunk : s.next.stringChunk u with
    | error halt =>
      simp only [iterateChunks, hchunk]
      exact ⟨fun _ hcopy => absurd hcopy List.not_mem_nil, (stringChunk_returns hlen).error hchunk⟩
    | ok found =>
      obtain ⟨r, next⟩ := found
      rcases stringChunk_cases hm h.ty hlen hchunk with
        ⟨rfl, rfl, hend⟩ | ⟨-, head, body, rest, hh, hdrop, rfl, rfl⟩
      · simp only [iterateChunks, hchunk]
        refine ⟨fun _ hcopy => absurd hcopy List.not_mem_nil, h, fun hunknown => ?_⟩
        rcases hend with hknown | ⟨-, hbyte⟩
        · rw [Bool.and_eq_true, isLengthKnown, Bool.not_eq_true'] at hknown
          exact absurd (hknown.1.symm.trans hunknown) Bool.false_ne_true
        · exact (List.getElem?_eq_some_iff.mp hbyte).1
      · have hhead := hh.length_pos
        have hpos := h.pos
        have hle := h.behind
        have hfirst := length_drop_of_append hpos hdrop
        have hbody := length_drop_of_append hfirst (drop_add_of_append hdrop)
        have hstep : ∀ total all, Walking major v ⟨{ s.next with
            pos := s.next.pos + head.length + body.length
            flags := { s.next.flags with negativeInteger := false } }, total, all⟩ := by
          intro total all
          refine ⟨h.buf, h.ty, ?_, hbody⟩
          dsimp only
          omega
        by_cases hbig : u.max < s.total + body.length
        · simp only [iterateChunks, hchunk, if_pos hbig]
          exact ⟨fun _ hcopy => absurd hcopy List.not_mem_nil, trivial⟩
        · have hslice : s.next.buf.slice? (s.next.pos + head.length) body.length = some body := by
            have htail := drop_add_of_append hdrop
            rw [slice?_of_le hbody, slice, htail, List.take_left]
          by_cases hcopy : (s.all && decide (s.total + body.length ≤ buflen)) = true
          · obtain ⟨hfit, hreturns⟩ := ih _ (hstep (s.total + body.length) true) (by dsimp only; omega)
            simp only [iterateChunks, hchunk, if_neg hbig, if_pos hcopy, hslice]
            refine ⟨?_, hreturns⟩
            intro copy hmem
            rcases List.mem_cons.mp hmem with rfl | hmem
            · rw [Bool.and_eq_true, decide_eq_true_eq] at hcopy
              exact hcopy.2
            · exact hfit copy hmem
          · simp only [iterateChunks, hchunk, if_neg hbig, if_neg hcopy]
            exact ih _ (hstep (s.total + body.length) false) (by dsimp only; omega)

/-- What is behind a string. -/
structure Onto (v w : Value) : Prop where
  sound : Sound w
  buf : w.buf = v.buf
  pos : v.pos ≤ w.pos

theorem finishString_returns {s : Chunking} (buflen : Nat) {major : Nat} (hshort : v.buf.length < 2 ^ 31)
    (h : Walking major v s)
    (hbroken : s.next.flags.unknownLength = true → s.next.pos < s.next.buf.length) :
    Returns (fun r : Copied × Value => Onto v r.2) (finishString u buflen s) := by
  have hpos := h.pos
  have hbuf := h.buf
  have hle := h.behind
  have hmax := u.le_max
  have hlen : s.next.buf.length < 2 ^ 31 := by
    rw [hbuf]
    exact hshort
  have hafter : ∀ pos, v.pos ≤ pos → pos ≤ s.next.buf.length → Returns (fun r : Copied × Value => Onto v r.2)
      (do
        let next ← ({ s.next with pos } : Value).preparseNextValue u |>.get
        return (⟨s.total, s.all, s.all && decide (s.total < buflen)⟩, next) : Run (Copied × Value)) := by
    intro pos hbehind hfit
    apply (next_returns (u := u) (w := { s.next with pos }) hlen hfit).bind
    intro next hnext
    exact ⟨hnext.sound, hnext.buf.trans hbuf, hnext.pos ▸ hbehind⟩
  rw [finishString]
  by_cases hknown : s.next.isLengthKnown = true
  · rw [if_pos hknown]
    exact hafter s.next.pos hle hpos
  · have hopen : s.next.flags.unknownLength = true := by
      rw [isLengthKnown, Bool.not_eq_true', Bool.not_eq_false] at hknown
      exact hknown
    have hlt := hbroken hopen
    rw [if_neg hknown, addUsize, if_pos (by omega)]
    exact hafter (s.next.pos + 1) (by omega) (by omega)

theorem iterateString_returns (h : Sound v) (buflen : Nat) :
    CopiesFit buflen (v.iterateString u buflen).1 ∧
      Returns (fun r => Onto v r.2) (v.iterateString u buflen).2 := by
  have hnone : CopiesFit buflen [] := fun _ hcopy => absurd hcopy List.not_mem_nil
  rw [iterateString]
  by_cases hkind : (!v.isTextString && !v.isByteString) = true
  · rw [if_pos hkind]
    exact ⟨hnone, trivial⟩
  · rw [if_neg hkind]
    have hty := string_ty hkind
    obtain ⟨major, hm, hmajor⟩ : ∃ major, (major = 2 ∨ major = 3) ∧ v.ty = UInt8.ofNat (32 * major) := by
      rcases hty with hty | hty
      · exact ⟨3, .inr rfl, hty⟩
      · exact ⟨2, .inl rfl, hty⟩
    have hvalid : v.ty ≠ invalid := by rcases hty with hty | hty <;> rw [hty] <;> decide
    obtain ⟨_, _, _, hon⟩ := h.on hvalid
    have hlt := hon.pos_lt
    have hshort := h.short
    have hmax := u.le_max
    have hfrom : ∀ pos, v.pos ≤ pos → pos ≤ v.pos + 1 → ∃ copies result,
        iterateChunks u buflen (v.buf.length + 1)
          ⟨{ v with pos, flags := { v.flags with iteratingStringChunks := true, negativeInteger := true } },
            0, true⟩ = (copies, result) ∧
        CopiesFit buflen copies ∧ Returns (fun s => Returns (fun r => Onto v r.2) (finishString u buflen s)) result := by
      intro pos hbehind hnear
      refine ⟨_, _, rfl, ?_⟩
      generalize hstart : (⟨{ v with
        pos, flags := { v.flags with iteratingStringChunks := true, negativeInteger := true } }, 0, true⟩ :
          Chunking) = start
      have hwalking : Walking major v start := by
        subst hstart
        exact ⟨rfl, hmajor, hbehind, by dsimp only; omega⟩
      have hfuel : start.next.buf.length < start.next.pos + (v.buf.length + 1) := by
        subst hstart
        dsimp only
        omega
      obtain ⟨hfit, hreturns⟩ := iterateChunks_returns (u := u) hm hshort buflen _ start hwalking hfuel
      exact ⟨hfit, hreturns.mono fun s hs => finishString_returns buflen hshort hs.1 hs.2⟩
    by_cases hknown : v.isLengthKnown = true
    · obtain ⟨copies, result, hloop, hfit, hreturns⟩ := hfrom v.pos (by omega) (by omega)
      rw [if_pos hknown]
      simp only [hloop]
      cases result with
      | error halt => exact ⟨hfit, hreturns⟩
      | ok s => exact ⟨hfit, hreturns⟩
    · obtain ⟨copies, result, hloop, hfit, hreturns⟩ := hfrom (v.pos + 1) (by omega) (by omega)
      rw [if_neg hknown, addUsize, if_pos (by omega)]
      simp only [hloop]
      cases result with
      | error halt => exact ⟨hfit, hreturns⟩
      | ok s => exact ⟨hfit, hreturns⟩

theorem copyString_returns (h : Sound v) (buflen : Nat) :
    CopiesFit buflen (v.copyString u buflen).1 ∧ Returns (fun _ => True) (v.copyString u buflen).2 := by
  have hreturns := iterateString_returns (u := u) h buflen
  rw [copyString]
  cases hwalk : v.iterateString u buflen with
  | mk copies result =>
    rw [hwalk] at hreturns
    refine ⟨hreturns.1, ?_⟩
    cases result with
    | error halt => exact hreturns.2
    | ok r => trivial

theorem string_returns (h : Sound v) : Returns (fun s => s.value = v) (v.string u) := by
  rw [Value.string]
  split_ifs
  · trivial
  · exact (copyString_returns h u.max).2.bind fun _ _ => rfl

/-! ### Containers -/

/-- What lies further on. -/
structure Beyond (v w : Value) : Prop where
  sound : Sound w
  buf : w.buf = v.buf
  pos : v.pos < w.pos

theorem enterFirst_returns {x : Value} (hbuf : x.buf = v.buf) (hshort : v.buf.length < 2 ^ 31)
    (hlt : v.pos < x.pos) (hfit : x.pos ≤ v.buf.length) : Returns (Beyond v) (enterFirst u x) := by
  apply (nodecrement_returns (u := u) _ _).mono
  · intro w hw
    exact ⟨hw.sound, hw.buf.trans hbuf, hw.pos ▸ hlt⟩
  · dsimp only
    rw [hbuf]
    exact hshort
  · dsimp only
    rw [hbuf]
    exact hfit

theorem enterContainer_returns (h : Sound v) : Returns (Beyond v) (v.enterContainer u) := by
  by_cases hcontainer : v.isContainer = true
  · have hvalid : v.ty ≠ invalid := by
      intro hty
      rw [isContainer, hty] at hcontainer
      exact absurd hcontainer (by decide)
    obtain ⟨major, info, argument, hon⟩ := h.on hvalid
    have hm := hon.container_iff.mp hcontainer
    have hhead := hon.head_le
    have hshort := h.short
    rcases (On.form hon) with ⟨hi | hi, hempty⟩
    · rcases enter_definite (u := u) hon hm hi h.pos_lt with
        ⟨-, hlarge⟩ | ⟨remaining, -, -, ⟨-, r, hr, hthrough⟩ | ⟨-, hfirst⟩⟩
      · rw [hlarge]
        trivial
      · rw [hr]
        have hpos := hthrough.pos
        refine ⟨⟨hthrough.buf ▸ hshort, .inr ⟨hthrough.remaining, hthrough.ty, ?_, fun hopen => ?_⟩⟩,
          hthrough.buf, by omega⟩
        · rw [hthrough.buf, hpos]
          exact hhead
        · rw [hthrough.unknownLength, decide_eq_true_eq] at hopen
          omega
      · rw [hfirst]
        exact enterFirst_returns rfl hshort (by dsimp only; omega) hhead
    · obtain rfl := hempty hi
      rw [enter_unbounded hon hm hi h.pos_lt]
      exact enterFirst_returns rfl hshort (by dsimp only; omega) hhead
  · rw [enterContainer, Bool.not_eq_true _ |>.mp hcontainer]
    trivial

theorem leaveContainer_returns {r : Value} (hv : Sound v) (hr : Sound r) (hbuf : r.buf = v.buf) :
    Returns (fun w => Sound w ∧ w.buf = v.buf ∧ r.pos ≤ w.pos) (v.leaveContainer u r).get := by
  have hmax := u.le_max
  have hshort := hv.short
  rw [leaveContainer]
  by_cases hkind : (!v.isContainer || decide (r.ty ≠ invalid)) = true
  · rw [if_pos hkind]
    trivial
  · rw [if_neg hkind]
    have hty : r.ty = invalid := by
      rw [Bool.not_eq_true, Bool.or_eq_false_iff, decide_eq_false_iff_not, not_not] at hkind
      exact hkind.2
    have hbehind := hr.behind hty
    have hpos := hbehind.pos
    rw [hbuf] at hpos
    have hnext : ∀ pos, r.pos ≤ pos → pos ≤ v.buf.length →
        Returns (fun w => Sound w ∧ w.buf = v.buf ∧ r.pos ≤ w.pos)
          (({ v with pos } : Value).preparseNextValue u).get := by
      intro pos hle hfit
      apply (next_returns (u := u) (w := { v with pos }) hshort hfit).mono
      intro w hw
      exact ⟨hw.sound, hw.buf, hw.pos ▸ hle⟩
    by_cases hopen : r.flags.unknownLength = true
    · have hlt := hbehind.broken hopen
      rw [hbuf] at hlt
      rw [if_pos hopen, addUsize, if_pos (by omega)]
      exact hnext (r.pos + 1) (by omega) (by omega)
    · rw [if_neg hopen]
      exact hnext r.pos (by omega) hpos

/-! ### Stepping over items -/

/-- A loop whose step moves on ends before it is out of fuel. -/
theorem untilEnd_returns {step : Value → Changed}
    (hstep : ∀ v, Sound v → v.remaining ≠ 0 → Returns (Beyond v) (step v).get) (fuel : Nat) (h : Sound v)
    (hfuel : v.buf.length < v.pos + fuel) :
    Returns (fun w => Sound w ∧ w.buf = v.buf) (untilEnd step fuel v).get := by
  induction fuel generalizing v with
  | zero =>
    have hpos := h.pos_le
    omega
  | succ fuel ih =>
    rw [untilEnd]
    by_cases hat : v.atEnd = true
    · rw [if_pos hat]
      exact ⟨h, rfl⟩
    · rw [if_neg hat]
      have hlive : v.remaining ≠ 0 := by simpa [atEnd] using hat
      have hone := hstep v h hlive
      cases hx : step v with
      | mk x result =>
        rw [hx] at hone
        cases result with
        | error halt => exact hone
        | ok _ =>
          have hbeyond : Beyond v x := hone
          have hlt := hbeyond.pos
          have hbuf := hbeyond.buf
          have hloop := ih hbeyond.sound (by rw [hbuf]; omega)
          rw [hbuf] at hloop
          exact hloop

/-- What a step takes is not empty. -/
theorem Steps.beyond {d : Nat} {step : Value → Changed} (hstep : Steps u d step) (h : Sound v)
    (hlive : v.remaining ≠ 0) (hw : step v = (w, .ok ())) :
    ∃ x n, 0 < n ∧ Moved v x n ∧ v.pos + n ≤ v.buf.length ∧ x.preparseNextValue u = (w, .ok ()) := by
  obtain ⟨_, _, _, hon⟩ := h.on_of_live hlive
  obtain ⟨b, rest, x, hdrop, hb, hmoved, hnext⟩ := hstep.sound h.short hon hlive hw
  refine ⟨x, b.length, ?_, hmoved, length_drop_of_append h.pos_le hdrop, hnext⟩
  by_cases htag : v.ty = tag
  · obtain ⟨arg, hh⟩ := hb.tagged htag
    exact hh.length_pos
  · exact (hb.item htag).length_pos

theorem advanceInternal_returns {major info : Nat} {argument : Bytes} (h : Sound v)
    (hon : On v major info argument) (hi : info ≤ 27) : Returns (Beyond v) (v.advanceInternal u).get := by
  rw [advanceInternal_on hon hi h.pos_lt]
  apply (next_returns_of_moved h.short (Nat.add_pos_left Nat.one_pos _) (moved_self v _) hon.head_le).mono
  rintro w ⟨hsound, hbuf, hlt⟩
  exact ⟨hsound, hbuf, hlt⟩

theorem advanceRecursive_ends (n : Nat) (h : Sound v) (hlive : v.remaining ≠ 0) :
    Returns (fun _ => True) (v.advanceRecursive u n).get := by
  induction n using Nat.strongRecOn generalizing v with
  | ind n ih =>
    obtain ⟨major, info, argument, hon⟩ := h.on_of_live hlive
    obtain ⟨hm, -, -, -⟩ := hon.head.bounds
    by_cases hfixed : major < 2 ∨ 5 < major
    · rw [advanceRecursive_fixed n hon hfixed]
      exact (advanceInternal_returns h hon (fixed_form hon hfixed)).mono fun _ _ => trivial
    by_cases hstring : major = 2 ∨ major = 3
    · have hreturns := (iterateString_returns (u := u) h u.max).2
      rw [advanceRecursive_string n hon hstring]
      cases hwalk : (v.iterateString u u.max).2 with
      | error halt => exact hreturns.error hwalk
      | ok r => trivial
    have hcontainer : major = 4 ∨ major = 5 := by omega
    rw [advanceRecursive_container n hon hcontainer]
    cases n with
    | zero => trivial
    | succ n =>
      have henter := enterContainer_returns (u := u) h
      cases hentered : v.enterContainer u with
      | error halt => exact henter.error hentered
      | ok recursed =>
        have hinside := henter.ok hentered
        have hlt := hinside.pos
        -- each step of the loop ends and takes something
        have hstep : ∀ x, Sound x → x.remaining ≠ 0 → Returns (Beyond x) (x.advanceRecursive u n).get := by
          intro x hx hxlive
          apply Ends.intro
          · intro w hw
            obtain ⟨y, k, hk, hmoved, hfit, hnext⟩ := (advance_steps u n).beyond hx hxlive (get_eq_ok hw)
            have hbeyond := next_returns_of_moved (u := u) hx.short hk hmoved hfit
            rw [hnext] at hbeyond
            exact ⟨hbeyond.1, hbeyond.2.1, hbeyond.2.2⟩
          · intro halt hhalt
            exact (ih n (Nat.lt_succ_self n) hx hxlive).error hhalt
        have hfuel : recursed.buf.length < recursed.pos + (v.buf.length + 1) := by
          rw [hinside.buf]
          omega
        have hloop := untilEnd_returns hstep (v.buf.length + 1) hinside.sound hfuel
        cases hended : untilEnd (advanceRecursive u n) (v.buf.length + 1) recursed with
        | mk x result =>
          rw [hended] at hloop
          cases result with
          | error halt =>
            simp only [hended]
            exact hloop
          | ok _ =>
            simp only [hended]
            exact (leaveContainer_returns h hloop.1 (hloop.2.trans hinside.buf)).mono fun _ _ => trivial

theorem advance_returns (h : Sound v) : Returns (Beyond v) (v.advance u).get := by
  rw [advance]
  by_cases hty : v.ty = invalid
  · rw [if_pos hty]
    trivial
  by_cases hzero : v.remaining = 0
  · rw [if_neg hty, if_pos hzero]
    trivial
  rw [if_neg hty, if_neg hzero]
  apply Ends.intro
  · intro w hw
    obtain ⟨x, n, hn, hmoved, hfit, hnext⟩ := (advance_steps u maxRecursions).beyond h hzero (get_eq_ok hw)
    have hbeyond := next_returns_of_moved (u := u) h.short hn hmoved hfit
    rw [hnext] at hbeyond
    exact ⟨hbeyond.1, hbeyond.2.1, hbeyond.2.2⟩
  · intro halt hhalt
    exact (advanceRecursive_ends maxRecursions h hzero).error hhalt

theorem validateBasic_returns (h : Sound v) : Returns (fun _ => True) (v.validateBasic u) := by
  have hreturns := advance_returns (u := u) h
  rw [validateBasic]
  cases hadvance : v.advance u with
  | mk w result =>
    rw [hadvance] at hreturns
    cases result with
    | error halt => exact hreturns
    | ok _ => trivial

/-- The item behind the tags, if there are any. -/
structure Untagged (v w : Value) : Prop where
  sound : Sound w
  buf : w.buf = v.buf
  untagged : w.isTag = false
  moved : v.isTag = true → v.pos < w.pos
  same : v.isTag = false → w = v

theorem Untagged.pos (h : Untagged v w) : v.pos ≤ w.pos := by
  cases htag : v.isTag with
  | false => rw [h.same htag]
  | true => exact Nat.le_of_lt (h.moved htag)

theorem skipTagLoop_returns (fuel : Nat) (h : Sound v) (hfuel : v.buf.length < v.pos + fuel) :
    Returns (Untagged v) (skipTagLoop u fuel v).get := by
  induction fuel generalizing v with
  | zero =>
    have hpos := h.pos_le
    omega
  | succ fuel ih =>
    rw [skipTagLoop]
    by_cases htag : v.isTag = true
    · have hty : v.ty = tag := by simpa [isTag] using htag
      rw [htag]
      by_cases hzero : v.remaining = 0
      · rw [if_neg (by decide), if_pos hzero]
        trivial
      · rw [if_neg (by decide), if_neg hzero]
        obtain ⟨major, info, argument, hon⟩ := h.on_of_live hzero
        have hsix := hon.tag_iff.mp hty
        have hone := advanceInternal_returns (u := u) h hon (fixed_form hon (.inr (by omega)))
        cases hx : v.advanceInternal u with
        | mk x result =>
          rw [hx] at hone
          cases result with
          | error halt => exact hone
          | ok _ =>
            have hbeyond : Beyond v x := hone
            have hlt := hbeyond.pos
            have hbuf := hbeyond.buf
            apply (ih hbeyond.sound (by rw [hbuf]; omega)).mono
            intro w hw
            have hle := hw.pos
            exact ⟨hw.sound, hw.buf.trans hbuf, hw.untagged, fun _ => by omega,
              fun hnot => absurd (hnot.symm.trans htag) Bool.false_ne_true⟩
    · rw [Bool.not_eq_true] at htag
      rw [htag]
      exact ⟨h, rfl, htag, fun hnot => absurd (htag.symm.trans hnot) Bool.false_ne_true, fun _ => rfl⟩

theorem skipTag_returns (h : Sound v) : Returns (Untagged v) (v.skipTag u).get :=
  skipTagLoop_returns _ h (by omega)

/-! ### Finding a value -/

theorem chunksEqual_returns {key : Bytes} {copies : List (Nat × Bytes)} (h : CopiesFit key.length copies) :
    Returns (fun _ => True) (chunksEqual key copies) := by
  induction copies with
  | nil => trivial
  | cons copy copies ih =>
    obtain ⟨start, chunk⟩ := copy
    have hfit : start + chunk.length ≤ key.length := h _ List.mem_cons_self
    rw [chunksEqual, slice?_of_le hfit]
    exact (ih fun c hc => h c (List.mem_cons_of_mem _ hc)).bind fun _ _ => trivial

theorem matchKey_returns (h : Sound v) (key : Bytes) :
    Returns (fun r => Sound r.1 ∧ r.1.buf = v.buf ∧ v.pos ≤ r.1.pos) (v.matchKey u key) := by
  rw [matchKey]
  by_cases htext : v.isTextString = true
  · have hwalk := iterateString_returns (u := u) h key.length
    rw [if_pos htext]
    cases hwalked : v.iterateString u key.length with
    | mk copies result =>
      rw [hwalked] at hwalk
      have hequal := chunksEqual_returns hwalk.1
      cases hchunks : chunksEqual key copies with
      | error halt =>
        simp only [hchunks]
        exact hequal.error hchunks
      | ok equal =>
        simp only [hchunks]
        apply hwalk.2.bind
        rintro ⟨copied, next⟩ honto
        have hle := honto.pos
        dsimp only
        split_ifs
        · have hsound := honto.sound
          apply (preparse_returns hsound.short hsound.pos_le).bind
          intro x hx
          exact ⟨hx.sound, hx.buf.trans honto.buf, hx.pos ▸ hle⟩
        · exact ⟨honto.sound, honto.buf, hle⟩
  · rw [if_neg htext]
    apply (advance_returns h).bind
    intro w hw
    exact ⟨hw.sound, hw.buf, Nat.le_of_lt hw.pos⟩

theorem findValue_returns (key : Bytes) (fuel : Nat) (h : Sound v) (hfuel : v.buf.length < v.pos + fuel) :
    Returns (fun w => Sound w ∧ w.buf = v.buf ∧ v.pos ≤ w.pos) (findValue u key fuel v) := by
  induction fuel generalizing v with
  | zero =>
    have hpos := h.pos_le
    omega
  | succ fuel ih =>
    rw [findValue]
    by_cases hat : v.atEnd = true
    · have hzero : v.remaining = 0 := by simpa [atEnd] using hat
      rw [if_pos hat]
      refine ⟨⟨h.short, .inr ⟨hzero, rfl, h.pos_le, fun hopen => ?_⟩⟩, rfl, Nat.le_refl _⟩
      rcases h.place with ⟨_, _, _, hon⟩ | hbehind
      · exact hon.pos_lt
      · exact hbehind.broken hopen
    · rw [if_neg hat]
      apply (skipTag_returns h).bind
      intro key₁ hkey
      apply (matchKey_returns hkey.sound key).bind
      rintro ⟨x, found⟩ ⟨hx, hxbuf, hxpos⟩
      have hkeypos := hkey.pos
      dsimp only at hxbuf hxpos ⊢
      by_cases hfound : found = true
      · rw [if_pos hfound]
        exact ⟨hx, hxbuf.trans hkey.buf, Nat.le_trans hkeypos hxpos⟩
      · rw [if_neg hfound]
        apply (skipTag_returns hx).bind
        intro y hy
        have hypos : x.pos ≤ y.pos := hy.pos
        apply (advance_returns hy.sound).bind
        intro z hz
        have hlt := hz.pos
        have hbuf : z.buf = v.buf := by rw [hz.buf, hy.buf, hxbuf, hkey.buf]
        apply (ih hz.sound (by rw [hbuf]; omega)).mono
        rintro w ⟨hsound, hsame, hle⟩
        exact ⟨hsound, hsame.trans hbuf, by omega⟩

theorem mapFindValue_returns (h : Sound v) (key : Bytes) : Returns (Beyond v) (v.mapFindValue u key) := by
  rw [mapFindValue]
  split_ifs
  · trivial
  · apply (enterContainer_returns h).bind
    intro r hr
    have hbuf := hr.buf
    have hlt := hr.pos
    apply (findValue_returns key (v.buf.length + 1) hr.sound (by rw [hbuf]; omega)).mono
    rintro w ⟨hsound, hsame, hle⟩
    exact ⟨hsound, hsame.trans hbuf, by omega⟩

/-! ### Counting -/

/-- An iterator with at least `k` items before the end of a container that counts them. -/
structure Room (k : Nat) (v : Value) : Prop where
  sound : Sound v
  counted : v.remaining ≠ unbounded
  enough : k ≤ v.remaining.toNat

theorem Room.live {k : Nat} (h : Room (k + 1) v) : v.remaining ≠ 0 := by
  intro hzero
  have henough := h.enough
  rw [hzero] at henough
  exact absurd henough (Nat.not_succ_le_zero k)

theorem Room.valid {k : Nat} (h : Room (k + 1) v) : v.ty ≠ invalid := by
  obtain ⟨_, _, _, hon⟩ := h.sound.on_of_live h.live
  exact hon.valid

/-- A step takes no more than one of the items that are counted. -/
theorem Room.advance {k : Nat} (h : Room (k + 1) v) :
    Returns (fun w => Room k w ∧ w.buf = v.buf) (v.advance u).get := by
  have hlive := h.live
  have hbeyond := advance_returns (u := u) h.sound
  apply Ends.intro
  · intro w hw
    have hsound := hbeyond.ok hw
    rw [Value.advance, if_neg h.valid, if_neg hlive] at hw
    obtain ⟨x, n, hn, hmoved, hfit, hnext⟩ := (advance_steps u maxRecursions).beyond h.sound hlive (get_eq_ok hw)
    have hcount : x.remaining = v.remaining := hmoved.remaining
    have henough := h.enough
    have hpos : x.pos < 2 ^ 31 := by
      have hshort := h.sound.short
      rw [hmoved.pos]
      omega
    refine ⟨⟨hsound.sound, ?_, ?_⟩, hsound.buf⟩
    · cases next_sound hpos (hcount ▸ hlive) hnext with
      | ended _ _ hended =>
        rw [hended.remaining]
        decide
      | broke _ hopen =>
        exact absurd (hcount.symm.trans hopen) h.counted
      | item _ _ _ _ hremaining =>
        rw [hremaining, hcount]
        split_ifs with hkeeps
        · exact h.counted
        · intro hopen
          have hzero : v.remaining = 0 := (eq_add_one_of_sub hopen).trans unbounded_add_one
          exact hlive hzero
    · cases next_sound hpos (hcount ▸ hlive) hnext with
      | ended _ hone hended =>
        rw [hcount] at hone
        rw [hone] at henough
        change k + 1 ≤ 1 at henough
        omega
      | broke _ hopen =>
        exact absurd (hcount.symm.trans hopen) h.counted
      | item _ _ _ _ hremaining =>
        rw [hremaining, hcount]
        have hless := remaining_sub_one hlive
        split_ifs
        · omega
        · omega
  · intro halt hhalt
    exact hbeyond.error hhalt

/-! ### Whatever is done -/

/-- The iterators that calls on `buf` return, and calls on these, and so on. What a call that fails leaves
of its iterator is not among them. -/
inductive Derived (u : Usize) (buf : Bytes) : Value → Prop
  | parse {v : Value} (h : Value.parse u buf = .ok v) : Derived u buf v
  | advance {v w : Value} (hv : Derived u buf v) (h : (v.advance u).get = .ok w) : Derived u buf w
  | skipTag {v w : Value} (hv : Derived u buf v) (h : (v.skipTag u).get = .ok w) : Derived u buf w
  | enter {v r : Value} (hv : Derived u buf v) (h : v.enterContainer u = .ok r) : Derived u buf r
  | leave {v r w : Value} (hv : Derived u buf v) (hr : Derived u buf r)
      (h : (v.leaveContainer u r).get = .ok w) : Derived u buf w
  | find {v w : Value} {key : Bytes} (hv : Derived u buf v) (h : v.mapFindValue u key = .ok w) :
      Derived u buf w

theorem Derived.sound {buf : Bytes} (hshort : buf.length < 2 ^ 31) (h : Derived u buf v) :
    Sound v ∧ v.buf = buf := by
  induction h with
  | parse h =>
    obtain ⟨hsound, hbuf, -⟩ := (parse_returns hshort).ok h
    exact ⟨hsound, hbuf⟩
  | advance _ h ih =>
    have hbeyond := (advance_returns ih.1).ok h
    exact ⟨hbeyond.sound, hbeyond.buf.trans ih.2⟩
  | skipTag _ h ih =>
    have huntagged := (skipTag_returns ih.1).ok h
    exact ⟨huntagged.sound, huntagged.buf.trans ih.2⟩
  | enter _ h ih =>
    have hbeyond := (enterContainer_returns ih.1).ok h
    exact ⟨hbeyond.sound, hbeyond.buf.trans ih.2⟩
  | leave _ _ h ihv ihr =>
    obtain ⟨hsound, hbuf, -⟩ := (leaveContainer_returns ihv.1 ihr.1 (ihr.2.trans ihv.2.symm)).ok h
    exact ⟨hsound, hbuf.trans ihv.2⟩
  | find _ h ih =>
    have hbeyond := (mapFindValue_returns ih.1 _).ok h
    exact ⟨hbeyond.sound, hbeyond.buf.trans ih.2⟩

end

end Value

end Bristlemouth.Parser
