import Bristlemouth.Parser.Total
import Bristlemouth.Service.ConfigMap
import Bristlemouth.Service.Metrics

/-!
# Bodies nobody vouches for

The decoders of service bodies over any bytes. Each ends, with what it read or with an error of its own. The
ones that read an argument without a look at its type do so where the map's count says there is a value.
-/

set_option autoImplicit false

namespace Bristlemouth.Service

open Bytes Config Bristlemouth.Parser

/-! ### Rules for decoders -/

/-- Whatever was written so far, the decoder returns. -/
def Settles {D α : Type} (post : α → Prop) (x : Into D α) : Prop := ∀ d, Returns post (x.into d).2

namespace Settles

variable {D α β : Type} {post : α → Prop} {post' : β → Prop}

theorem bind {x : Into D α} {f : α → Into D β} (h : Settles post x) (hf : ∀ a, post a → Settles post' (f a)) :
    Settles post' (x >>= f) := by
  intro d
  have hx := h d
  have hbind : (x >>= f).into d = match x.into d with
      | (d', .ok a) => (f a).into d'
      | (d', .error e) => (d', .error e) := by
    simp only [Into.into, ExceptT.run_bind, StateT.run_bind]
    generalize x.run.run d = r
    obtain ⟨result, d'⟩ := r
    cases result <;> rfl
  rw [hbind]
  generalize x.into d = r at hx
  obtain ⟨d', result⟩ := r
  cases result with
  | ok a => exact hf a hx d'
  | error e => exact hx

theorem reading {r : Run α} (h : Returns post r) : Settles post (reading r : Into D α) := fun _ => h

theorem modify (g : D → D) : Settles (fun _ => True) (modify g : Into D Unit) := fun _ => trivial

theorem get : Settles (fun _ => True) (get : Into D D) := fun _ => trivial

theorem pure {a : α} (h : post a) : Settles post (pure a : Into D α) := fun _ => h

theorem fail (e : CborError) : Settles post (Service.reading (Parser.fail e) : Into D α) := fun _ => trivial

end Settles

section
variable {u : Usize} {buf : Bytes} {v : Value}

theorem skipKey_returns (h : Sound v) : Returns (Value.Beyond v) (skipKey u v) := by
  rw [skipKey]
  split_ifs
  · trivial
  · exact Value.advance_returns h

theorem skipKey_room {k : Nat} (h : Value.Room (k + 1) v) :
    Returns (fun w => Value.Room k w ∧ w.buf = v.buf) (skipKey u v) := by
  rw [skipKey]
  split_ifs
  · trivial
  · exact h.advance

theorem leaveMap_returns {map value : Value} (hmap : Sound map) (hvalue : Sound value)
    (hbuf : value.buf = map.buf) : Returns (fun _ => True) (leaveMap u map value) := by
  rw [leaveMap]
  apply (Value.leaveContainer_returns hmap hvalue hbuf).bind
  intro w _
  split_ifs
  · trivial
  · trivial

/-- A map that was entered, and the iterator on its first key. -/
structure Entered (buf : Bytes) (fields : Nat) (r : Value × Value) : Prop where
  map : Sound r.1
  map_buf : r.1.buf = buf
  value : Value.Room (2 * fields) r.2
  value_buf : r.2.buf = buf

theorem mapLength_eq {n major info : Nat} {argument : Bytes} (h : Sound v) (hon : On v major info argument)
    (hlength : v.mapLength u = .ok n) : major = 5 ∧ info ≤ 27 ∧ argumentOf info argument = n := by
  rw [Value.mapLength] at hlength
  by_cases hmap : (!v.isMap) = true
  · rw [if_pos hmap] at hlength
    cases hlength
  by_cases hknown : (!v.isLengthKnown) = true
  · rw [if_neg hmap, if_pos hknown] at hlength
    cases hlength
  rw [if_neg hmap, if_neg hknown] at hlength
  have hty : v.ty = map := by simpa [Value.isMap] using hmap
  have hfive : major = 5 := (hon.ty_iff (k := 5) (by decide) (by decide)).mp hty
  have hi : info ≤ 27 := by
    rcases (Value.On.form hon).1 with hi | hi
    · exact hi
    · rw [Value.isLengthKnown, hon.unknownLength, hi] at hknown
      exact absurd rfl hknown
  obtain ⟨x, hx, harg⟩ := Value.extract_on (u := u) hon hi h.pos_lt
  rw [hx] at hlength
  have hvalue : x.toNat = argumentOf info argument := harg (by omega)
  have hfrom : u.tryFrom x.toNat = some n := by
    cases hfrom : u.tryFrom x.toNat with
    | none =>
      simp only [bind, Except.bind, hfrom] at hlength
      cases hlength
    | some len =>
      simp only [bind, Except.bind, hfrom] at hlength
      exact congrArg some (Except.ok.inj hlength)
  rw [Usize.tryFrom] at hfrom
  split_ifs at hfrom
  exact ⟨hfive, hi, hvalue.symm.trans (Option.some_injective _ hfrom)⟩

theorem enterMap_returns (hshort : buf.length < 2 ^ 31) (fields : Nat) :
    Returns (Entered buf fields) (enterMap u buf fields) := by
  rw [enterMap]
  apply (Value.parse_returns hshort).bind
  rintro map ⟨hmap, hbuf, hpos⟩
  apply (Value.validateBasic_returns hmap).bind
  intro _ _
  by_cases hismap : (!map.isMap) = true
  · rw [if_pos hismap]
    trivial
  rw [if_neg hismap]
  have hlength := Value.mapLength_returns (u := u) hmap
  cases hn : map.mapLength u with
  | error halt => exact hlength.error hn
  | ok n =>
    by_cases hfields : n ≠ fields
    · simp only [bind, Except.bind, if_pos hfields]
      trivial
    · obtain rfl := not_not.mp hfields
      simp only [bind, Except.bind, ne_eq, not_true_eq_false, if_false]
      have henter := Value.enterContainer_returns (u := u) hmap
      cases hr : map.enterContainer u with
      | error halt => exact henter.error hr
      | ok r =>
        have hbeyond := henter.ok hr
        have hty : map.ty = Parser.map := by simpa [Value.isMap] using hismap
        have hvalid : map.ty ≠ invalid := by
          rw [hty]
          decide
        obtain ⟨major, info, argument, hon⟩ := hmap.on hvalid
        obtain ⟨rfl, hi, harg⟩ := mapLength_eq hmap hon hn
        refine ⟨hmap, hbuf, ⟨hbeyond.sound, ?_, ?_⟩, hbeyond.buf.trans hbuf⟩
        · rcases Value.entered_cases 0 hon (.inr rfl) hmap.short hr with ⟨hthrough, -⟩ | ⟨_, hinside, hcounting⟩
          · rw [hthrough.remaining]
            decide
          · rw [hinside.remaining]
            exact (hcounting.counted hi).1
        · rcases Value.entered_cases 0 hon (.inr rfl) hmap.short hr with
            ⟨-, _, hcontents⟩ | ⟨_, hinside, hcounting⟩
          · have hcount := hcontents.counted hi
            rw [harg] at hcount
            change 0 = 2 * n at hcount
            omega
          · rw [hinside.remaining, (hcounting.counted hi).2, harg]
            exact Nat.le_refl _

end

/-! ### Bodies of fixed keys -/

section
variable {u : Usize} {buf : Bytes} {v : Value}

theorem extract_room {k : Nat} (h : Value.Room (k + 1) v) : Returns (fun _ => True) (v.extract u) :=
  Value.extract_returns h.sound h.valid

theorem SysInfo.argument_settles {k : Nat} (h : Value.Room (k + 2) v)
    (set : UInt64 → DecodedSysInfoReply → DecodedSysInfoReply) :
    Settles (fun w => Value.Room k w ∧ w.buf = v.buf) (SysInfo.argument u v set) := by
  apply (Settles.reading (skipKey_room (k := k + 1) h)).bind
  rintro x ⟨hx, hxbuf⟩
  apply (Settles.reading (extract_room hx)).bind
  intro n _
  apply (Settles.modify _).bind
  intro _ _
  exact Settles.reading (hx.advance.mono fun w hw => ⟨hw.1, hw.2.trans hxbuf⟩)

theorem sysInfo_settles (u : Usize) (hshort : buf.length < 2 ^ 31) :
    Settles (fun _ => True) (SysInfo.decodeInto u buf) := by
  apply (Settles.modify _).bind
  intro _ _
  apply (Settles.reading (enterMap_returns hshort SysInfo.numFields)).bind
  rintro ⟨map, v0⟩ hentered
  have h0 : Value.Room 10 v0 := hentered.value
  have hbuf0 : v0.buf = buf := hentered.value_buf
  have hmapbuf : map.buf = buf := hentered.map_buf
  apply (SysInfo.argument_settles h0 _).bind
  rintro v1 ⟨h1, hbuf1⟩
  apply (SysInfo.argument_settles h1 _).bind
  rintro v2 ⟨h2, hbuf2⟩
  apply (SysInfo.argument_settles h2 _).bind
  rintro v3 ⟨h3, hbuf3⟩
  apply (SysInfo.argument_settles h3 _).bind
  rintro v4 ⟨h4, hbuf4⟩
  apply (Settles.reading (skipKey_room h4)).bind
  rintro v5 ⟨h5, hbuf5⟩
  split_ifs
  · exact Settles.fail _
  · apply Settles.get.bind
    intro d _
    apply (Settles.reading (Value.copyString_returns h5.sound _).2).bind
    intro copied _
    split_ifs
    · exact Settles.fail _
    · apply (Settles.reading (Value.string_returns h5.sound)).bind
      intro name _
      apply (Settles.modify _).bind
      intro _ _
      apply (Settles.reading h5.advance).bind
      rintro v6 ⟨h6, hbuf6⟩
      apply Settles.reading
      apply leaveMap_returns hentered.map h6.sound
      rw [hmapbuf, hbuf6, hbuf5, hbuf4, hbuf3, hbuf2, hbuf1, hbuf0]

theorem PowerInfo.uint32_settles (h : Sound v) (set : UInt32 → PowerInfoReply → PowerInfoReply) :
    Settles (Value.Beyond v) (PowerInfo.uint32 u v set) := by
  apply (Settles.reading (skipKey_returns h)).bind
  intro x hx
  by_cases hkind : (!x.isUnsignedInteger) = true
  · rw [if_pos hkind]
    exact Settles.fail _
  · rw [if_neg hkind]
    have hty : x.ty ≠ invalid := by
      intro hty
      rw [Value.isUnsignedInteger, hty] at hkind
      exact hkind rfl
    apply (Settles.reading (Value.extract_returns hx.sound hty)).bind
    intro n _
    apply (Settles.reading (Value.advance_returns hx.sound)).bind
    intro w hw
    apply (Settles.modify _).bind
    intro _ _
    exact Settles.pure ⟨hw.sound, hw.buf.trans hx.buf, Nat.lt_trans hx.pos hw.pos⟩

theorem powerInfo_settles (u : Usize) (hshort : buf.length < 2 ^ 31) :
    Settles (fun _ => True) (PowerInfo.decodeInto u buf) := by
  apply (Settles.reading (enterMap_returns hshort PowerInfo.numFields)).bind
  rintro ⟨map, v0⟩ hentered
  have hbuf0 : v0.buf = buf := hentered.value_buf
  have hmapbuf : map.buf = buf := hentered.map_buf
  apply (PowerInfo.uint32_settles hentered.value.sound _).bind
  intro v1 h1
  apply (PowerInfo.uint32_settles h1.sound _).bind
  intro v2 h2
  apply (PowerInfo.uint32_settles h2.sound _).bind
  intro v3 h3
  apply Settles.reading
  apply leaveMap_returns hentered.map h3.sound
  rw [hmapbuf, h3.buf, h2.buf, h1.buf, hbuf0]

theorem configMapRequest_settles (u : Usize) (hshort : buf.length < 2 ^ 31) :
    Settles (fun _ => True) (ConfigMap.ConfigMapRequest.decodeInto u buf) := by
  apply (Settles.reading (enterMap_returns hshort ConfigMap.requestNumFields)).bind
  rintro ⟨map, v0⟩ hentered
  have h0 : Value.Room 2 v0 := hentered.value
  have hbuf0 : v0.buf = buf := hentered.value_buf
  have hmapbuf : map.buf = buf := hentered.map_buf
  apply (Settles.reading (skipKey_room h0)).bind
  rintro v1 ⟨h1, hbuf1⟩
  apply (Settles.reading (extract_room h1)).bind
  intro n _
  apply (Settles.modify _).bind
  intro _ _
  apply (Settles.reading h1.advance).bind
  rintro v2 ⟨h2, hbuf2⟩
  apply Settles.reading
  apply leaveMap_returns hentered.map h2.sound
  rw [hmapbuf, hbuf2, hbuf1, hbuf0]

theorem ConfigMap.DecodedConfigMapReply.argument_settles {k : Nat} (h : Value.Room (k + 2) v)
    (set : UInt64 → DecodedConfigMapReply → DecodedConfigMapReply) :
    Settles (fun w => Value.Room k w ∧ w.buf = v.buf) (argument u v set) := by
  apply (Settles.reading (skipKey_room (k := k + 1) h)).bind
  rintro x ⟨hx, hxbuf⟩
  apply (Settles.reading (extract_room hx)).bind
  intro n _
  apply (Settles.modify _).bind
  intro _ _
  exact Settles.reading (hx.advance.mono fun w hw => ⟨hw.1, hw.2.trans hxbuf⟩)

theorem configMapReply_settles (u : Usize) (hshort : buf.length < 2 ^ 31) :
    Settles (fun _ => True) (ConfigMap.DecodedConfigMapReply.decodeInto u buf) := by
  apply (Settles.modify _).bind
  intro _ _
  apply (Settles.reading (enterMap_returns hshort ConfigMap.replyNumFields)).bind
  rintro ⟨map, v0⟩ hentered
  have h0 : Value.Room 10 v0 := hentered.value
  have hbuf0 : v0.buf = buf := hentered.value_buf
  have hmapbuf : map.buf = buf := hentered.map_buf
  apply (ConfigMap.DecodedConfigMapReply.argument_settles h0 _).bind
  rintro v1 ⟨h1, hbuf1⟩
  apply (ConfigMap.DecodedConfigMapReply.argument_settles h1 _).bind
  rintro v2 ⟨h2, hbuf2⟩
  apply (ConfigMap.DecodedConfigMapReply.argument_settles h2 _).bind
  rintro v3 ⟨h3, hbuf3⟩
  apply (ConfigMap.DecodedConfigMapReply.argument_settles h3 _).bind
  rintro v4 ⟨h4, hbuf4⟩
  apply (Settles.reading (skipKey_room h4)).bind
  rintro v5 ⟨h5, hbuf5⟩
  apply Settles.get.bind
  intro d _
  split_ifs
  · exact Settles.pure trivial
  · exact Settles.fail _
  · apply (Settles.reading (Value.copyString_returns h5.sound _).2).bind
    intro copied _
    split_ifs
    · exact Settles.fail _
    · exact Settles.fail _
    · apply (Settles.reading (Value.string_returns h5.sound)).bind
      intro data _
      apply (Settles.reading h5.advance).bind
      rintro v6 ⟨h6, hbuf6⟩
      have hleave := leaveMap_returns (u := u) hentered.map h6.sound
        (by rw [hmapbuf, hbuf6, hbuf5, hbuf4, hbuf3, hbuf2, hbuf1, hbuf0])
      apply (Settles.reading hleave).bind
      intro _ _
      exact Settles.modify _

end

/-! ### The body of metrics -/

namespace Metrics

variable {u : Usize} {buf : Bytes} {v : Value}

theorem keyValueUint_returns (h : Sound v) : Returns (fun r => Value.Beyond v r.2) (keyValueUint u v) := by
  apply (skipKey_returns h).bind
  intro x hx
  by_cases hkind : (!x.isUnsignedInteger) = true
  · rw [if_pos hkind]
    trivial
  · rw [if_neg hkind]
    have hty : x.ty ≠ invalid := by
      intro hty
      rw [Value.isUnsignedInteger, hty] at hkind
      exact hkind rfl
    apply (Value.extract_returns (u := u) hx.sound hty).bind
    intro n _
    apply (Value.advance_returns hx.sound).bind
    intro w hw
    exact ⟨hw.sound, hw.buf.trans hx.buf, Nat.lt_trans hx.pos hw.pos⟩

theorem assign_returns (h : Sound v) (field : Field) : Returns (fun _ => True) (field.assign u v) := by
  have htyped : ∀ {kind : Bool}, (v.ty = invalid → kind = false) → ∀ f : UInt64 → Field,
      Returns (fun _ => True) (if kind then do return some (f (← v.extract u)) else .ok none : Run (Option Field)) := by
    intro kind hkind f
    cases kind with
    | false => trivial
    | true =>
      have hty : v.ty ≠ invalid := fun hty => nomatch hkind hty
      exact (Value.extract_returns (u := u) h hty).bind fun _ _ => trivial
  have hunsigned : v.ty = invalid → v.isUnsignedInteger = false := by
    intro hty
    rw [Value.isUnsignedInteger, hty]
    rfl
  cases field with
  | u8 old => exact htyped hunsigned fun n => .u8 n.toUInt8
  | u16 old => exact htyped hunsigned fun n => .u16 n.toUInt16
  | u32 old => exact htyped hunsigned fun n => .u32 n.toUInt32
  | u64 old => exact htyped hunsigned fun n => .u64 n
  | float old =>
    refine htyped (fun hty => ?_) fun n => .float n.toUInt32
    rw [Value.isFloat, hty]
    rfl
  | double old =>
    refine htyped (fun hty => ?_) fun n => .double n
    rw [Value.isDouble, hty]
    rfl
  | string => trivial

theorem keyBuffer_returns {key : Bytes} {copies : List (Nat × Bytes)} (h : Value.CopiesFit key.length copies) :
    Returns (fun _ => True) (keyBuffer key copies) := by
  induction copies generalizing key with
  | nil => trivial
  | cons copy copies ih =>
    obtain ⟨start, chunk⟩ := copy
    have hfit : start + chunk.length ≤ key.length := h _ List.mem_cons_self
    have hlen := length_copyAt key start chunk hfit
    rw [keyBuffer, if_pos hfit]
    apply ih
    intro copy hcopy
    rw [hlen]
    exact h copy (List.mem_cons_of_mem _ hcopy)

theorem readKey_returns (h : Sound v) {keyLen : Nat} (hlen : keyLen ≤ maxKeyLen) :
    Returns (fun _ => True) (readKey u v keyLen) := by
  have hcopy := Value.copyString_returns (u := u) h keyLen
  rw [readKey]
  generalize v.copyString u keyLen = copying at hcopy
  obtain ⟨copies, result⟩ := copying
  obtain ⟨hfit, hresult⟩ := hcopy
  have hroom : Value.CopiesFit (List.replicate maxKeyLen (0 : UInt8)).length copies := by
    intro copy hmem
    rw [List.length_replicate]
    exact Nat.le_trans (hfit copy hmem) hlen
  apply (keyBuffer_returns hroom).bind
  intro key _
  apply hresult.bind
  intro copied _
  by_cases hall : (!copied.all) = true
  · rw [if_pos hall]
    trivial
  · rw [if_neg hall]
    trivial

theorem assignEntry_returns (h : Sound v) (key : Bytes) (entries : List Entry) :
    Returns (fun _ => True) (assignEntry u v key entries) := by
  rw [assignEntry]
  cases hfound : entries.findIdx? fun e => decide (cStr e.key = key) with
  | none => trivial
  | some i =>
    obtain ⟨hlt, -⟩ := List.findIdx?_eq_some_iff_getElem.mp hfound
    simp only [List.getElem?_eq_getElem hlt]
    apply (assign_returns h _).bind
    intro assigned _
    cases assigned with
    | none => trivial
    | some field => trivial

theorem advance_twice_returns (h : Sound v) :
    Returns (Value.Beyond v) ((v.advance u).get >>= fun value => (value.advance u).get) := by
  apply (Value.advance_returns h).bind
  intro x hx
  apply (Value.advance_returns hx.sound).mono
  intro w hw
  exact ⟨hw.sound, hw.buf.trans hx.buf, Nat.lt_trans hx.pos hw.pos⟩

/-- Each turn of the loop takes a key and a value. -/
theorem decodeFields_returns (fuel : Nat) (h : Sound v) (hfuel : v.buf.length < v.pos + fuel)
    (entries : List Entry) (unknownKey typeMismatch : Bool) :
    Returns (fun _ => True) (decodeFields u fuel v entries unknownKey typeMismatch).2 := by
  induction fuel generalizing v entries unknownKey typeMismatch with
  | zero =>
    have hpos := h.pos_le
    omega
  | succ fuel ih =>
    have hagain : ∀ {w : Value}, Value.Beyond v w → ∀ entries unknownKey typeMismatch,
        Returns (fun _ => True) (decodeFields u fuel w entries unknownKey typeMismatch).2 := by
      intro w hw entries unknownKey typeMismatch
      have hlt := hw.pos
      exact ih hw.sound (by rw [hw.buf]; omega) entries unknownKey typeMismatch
    rw [decodeFields]
    by_cases hend : v.atEnd = true
    · rw [if_pos hend]
      dsimp only
      split_ifs
      all_goals trivial
    by_cases htext : (!v.isTextString) = true
    · rw [if_neg hend, if_pos htext]
      trivial
    rw [if_neg hend, if_neg htext]
    have hkeyLen := Value.stringLength_returns (u := u) h
    cases hlen : v.stringLength u with
    | error halt => exact hkeyLen.error hlen
    | ok keyLen =>
      dsimp only
      by_cases hlong : maxKeyLen - 1 < keyLen
      · have htwice := advance_twice_returns (u := u) h
        rw [if_pos hlong]
        cases hw : (v.advance u).get >>= fun value => (value.advance u).get with
        | error halt => exact htwice.error hw
        | ok w => exact hagain (htwice.ok hw) entries unknownKey typeMismatch
      · rw [if_neg hlong]
        have hread := readKey_returns (u := u) h (show keyLen ≤ maxKeyLen by omega)
        cases hkey : readKey u v keyLen with
        | error halt => exact hread.error hkey
        | ok key =>
          dsimp only
          have honce := Value.advance_returns (u := u) h
          cases hx : (v.advance u).get with
          | error halt => exact honce.error hx
          | ok x =>
            have hbeyond := honce.ok hx
            have hassign := assignEntry_returns (u := u) hbeyond.sound key entries
            dsimp only
            cases hentries : assignEntry u x key entries with
            | error halt => exact hassign.error hentries
            | ok r =>
              obtain ⟨entries', unknown, mismatch⟩ := r
              have hnext := Value.advance_returns (u := u) hbeyond.sound
              dsimp only
              cases hw : (x.advance u).get with
              | error halt => exact hnext.error hw
              | ok w =>
                have hlast := hnext.ok hw
                exact hagain ⟨hlast.sound, hlast.buf.trans hbeyond.buf, Nat.lt_trans hbeyond.pos hlast.pos⟩ _ _ _

theorem decodeComponents_returns {data : Value} (h : Sound data) (components : List Component) :
    Returns (fun _ => True) (decodeComponents u data components).2 := by
  induction components with
  | nil => trivial
  | cons c components ih =>
    have hfind := Value.mapFindValue_returns (u := u) h (cStr c.key)
    rw [decodeComponents]
    cases hcomp : data.mapFindValue u (cStr c.key) with
    | error halt => exact hfind.error hcomp
    | ok comp =>
      have hsound := (hfind.ok hcomp).sound
      dsimp only
      by_cases hvalid : (!comp.isValid) = true
      · rw [if_pos hvalid]
        exact ih
      by_cases hmap : (!comp.isMap) = true
      · rw [if_neg hvalid, if_pos hmap]
        trivial
      rw [if_neg hvalid, if_neg hmap]
      have henter := Value.enterContainer_returns (u := u) hsound
      cases hfield : comp.enterContainer u with
      | error halt => exact henter.error hfield
      | ok field =>
        have hinside := henter.ok hfield
        have hfields := decodeFields_returns (u := u) (field.buf.length + 1) hinside.sound (by omega) c.fields
          false false
        dsimp only
        generalize decodeFields u (field.buf.length + 1) field c.fields false false = decoded at hfields
        obtain ⟨fields, result⟩ := decoded
        dsimp only
        by_cases hgoes : result = .ok () ∨ result = fail .unsupportedType
        · rw [if_pos hgoes]
          exact ih
        · rw [if_neg hgoes]
          exact hfields

theorem decodeHead_settles (u : Usize) (hshort : buf.length < 2 ^ 31) : Settles Sound (decodeHead u buf) := by
  apply (Settles.reading (enterMap_returns hshort numFields)).bind
  rintro ⟨map, v0⟩ hentered
  apply (Settles.reading (keyValueUint_returns hentered.value.sound)).bind
  rintro ⟨n1, v1⟩ h1
  apply (Settles.modify _).bind
  intro _ _
  apply (Settles.reading (keyValueUint_returns h1.sound)).bind
  rintro ⟨n2, v2⟩ h2
  apply (Settles.modify _).bind
  intro _ _
  apply (Settles.reading (keyValueUint_returns h2.sound)).bind
  rintro ⟨n3, v3⟩ h3
  apply (Settles.modify _).bind
  intro _ _
  split_ifs
  · exact Settles.fail _
  · apply (Settles.reading (Value.advance_returns h3.sound)).bind
    intro data hdata
    split_ifs
    · exact Settles.fail _
    · exact Settles.pure hdata.sound

theorem decode_returns (u : Usize) (hshort : buf.length < 2 ^ 31) (reply : Reply) (components : List Component) :
    Returns (fun _ => True) (decode u buf reply components).2 := by
  have hhead := decodeHead_settles u hshort reply
  rw [decode]
  generalize (decodeHead u buf).into reply = head at hhead
  obtain ⟨reply', result⟩ := head
  cases result with
  | error halt => exact hhead
  | ok data => exact decodeComponents_returns hhead components

end Metrics

/-- The decoders end, each with what it read or with an error of its own. -/
structure BodiesReturn (u : Usize) (buf : Bytes) : Prop where
  sysInfo : ∀ d, Returns (fun _ => True) ((SysInfo.decodeInto u buf).into d).2
  powerInfo : ∀ d, Returns (fun _ => True) ((PowerInfo.decodeInto u buf).into d).2
  configMapRequest : ∀ d, Returns (fun _ => True) ((ConfigMap.ConfigMapRequest.decodeInto u buf).into d).2
  configMapReply : ∀ d, Returns (fun _ => True) ((ConfigMap.DecodedConfigMapReply.decodeInto u buf).into d).2
  metrics : ∀ d components, Returns (fun _ => True) (Metrics.decode u buf d components).2
  parse : Returns (fun v => v.buf = buf ∧ v.pos = 0) (Value.parse u buf)

/-- Calls on an iterator end, those that step over something have moved on, and nothing leads out of the
buffer. Only the calls that read an argument without a look at the type ask for an item to stand on. -/
structure CallsReturn (u : Usize) (buf : Bytes) (v : Value) : Prop where
  advance : Returns (fun w => v.pos < w.pos ∧ w.pos ≤ buf.length) (v.advance u).get
  enter : Returns (fun w => v.pos < w.pos ∧ w.pos ≤ buf.length) (v.enterContainer u)
  skipTag : Returns (fun w => w.isTag = false ∧ (v.isTag = true → v.pos < w.pos) ∧
    (v.isTag = false → w = v) ∧ w.pos ≤ buf.length) (v.skipTag u).get
  leave : ∀ r, Value.Derived u buf r →
    Returns (fun w => r.pos ≤ w.pos ∧ w.pos ≤ buf.length) (v.leaveContainer u r).get
  find : ∀ key, Returns (fun w => v.pos < w.pos ∧ w.pos ≤ buf.length) (v.mapFindValue u key)
  validate : Returns (fun _ => True) (v.validateBasic u)
  copy : ∀ buflen, Value.CopiesFit buflen (v.copyString u buflen).1 ∧
    Returns (fun _ => True) (v.copyString u buflen).2
  string : Returns (fun s => s.value = v) (v.string u)
  stringLength : Returns (fun _ => True) (v.stringLength u)
  mapLength : Returns (fun _ => True) (v.mapLength u)
  extract : v.isValid = true → ∃ n, v.extract u = .ok n
  getInt64 : v.isValid = true → Returns (fun _ => True) (v.getInt64 u)
  getFloat : v.isValid = true → Returns (fun _ => True) (v.getFloat u)

/-- Bodies from anywhere are decoded or refused, and so is whatever is read of them through iterators that
calls have returned. -/
theorem untrusted_bodies (u : Usize) (buf : Bytes) (hshort : buf.length < 2 ^ 31) :
    BodiesReturn u buf ∧ ∀ v, Value.Derived u buf v → CallsReturn u buf v := by
  refine ⟨⟨sysInfo_settles u hshort, powerInfo_settles u hshort, configMapRequest_settles u hshort,
    configMapReply_settles u hshort, fun d components => Metrics.decode_returns u hshort d components,
    (Value.parse_returns hshort).mono fun _ hv => hv.2⟩, fun v hv => ?_⟩
  obtain ⟨hsound, rfl⟩ := hv.sound hshort
  have hwithin : ∀ {w : Value}, Sound w → w.buf = v.buf → w.pos ≤ v.buf.length := by
    intro w hw hbuf
    rw [← hbuf]
    exact hw.pos_le
  have hvalid : v.isValid = true → v.ty ≠ invalid := by
    intro h
    simpa [Value.isValid] using h
  exact {
    advance := (Value.advance_returns hsound).mono fun w hw => ⟨hw.pos, hwithin hw.sound hw.buf⟩
    enter := (Value.enterContainer_returns hsound).mono fun w hw => ⟨hw.pos, hwithin hw.sound hw.buf⟩
    skipTag := (Value.skipTag_returns hsound).mono fun w hw =>
      ⟨hw.untagged, hw.moved, hw.same, hwithin hw.sound hw.buf⟩
    leave := fun r hr =>
      have ⟨hrsound, hrbuf⟩ := hr.sound hshort
      (Value.leaveContainer_returns hsound hrsound hrbuf).mono fun w hw => ⟨hw.2.2, hwithin hw.1 hw.2.1⟩
    find := fun key => (Value.mapFindValue_returns hsound key).mono fun w hw =>
      ⟨hw.pos, hwithin hw.sound hw.buf⟩
    validate := Value.validateBasic_returns hsound
    copy := Value.copyString_returns hsound
    string := Value.string_returns hsound
    stringLength := Value.stringLength_returns hsound
    mapLength := Value.mapLength_returns hsound
    extract := fun h => Value.extract_ok hsound (hvalid h)
    getInt64 := fun h => Value.getInt64_returns hsound (hvalid h)
    getFloat := fun h => Value.getFloat_returns hsound (hvalid h) }

/-- A map of four entries whose first value is a byte string that promises 2^64 - 1 bytes. -/
def hugeBody : Bytes := [0xa4, 0x61, 0x76, 0x5b, 0xff, 0xff, 0xff, 0xff, 0xff, 0xff, 0xff, 0xff]

theorem untrusted_bodies_huge :
    BodiesReturn .bits64 hugeBody ∧ ∀ v, Value.Derived .bits64 hugeBody v → CallsReturn .bits64 hugeBody v :=
  untrusted_bodies .bits64 hugeBody (by decide)

/-- An item of nine bytes, behind which there is nothing. -/
def lastItem : Bytes := 0x1b :: List.replicate 8 0

/-- A map of indefinite length that breaks off behind its first key. -/
def brokenOff : Bytes := 0xbf :: 0x1b :: List.replicate 7 0 ++ [0x01, 0xff]

/-- Behind the last item an argument is sliced from where there is none, and so is one of the iterator that
a failed call has left at the break, its type and the flag for eight bytes being those of the key. -/
theorem calls_out_of_place_panic :
    (∃ v, Value.Derived .bits64 lastItem v ∧ v.isValid = false ∧ v.extract .bits64 = .error .panic ∧
      v.getInt64 .bits64 = .error .panic) ∧
    ∃ v, Value.Derived .bits64 brokenOff v ∧ (v.advance .bits64).2 = fail .unexpectedBreak ∧
      ((v.advance .bits64).1.advance .bits64).2 = .error .panic := by
  constructor
  · refine ⟨_, .advance (.parse rfl) rfl, ?_⟩
    decide +kernel
  · refine ⟨_, .enter (.parse rfl) rfl, ?_⟩
    decide +kernel

end Bristlemouth.Service
