import Bristlemouth.Mcuboot.Entries

/-!
# Any bytes as a TLV area

`parse` and `next` once more, with the panics: a `usize` sum that overflows and an index outside the
slice are `none`. On any header and any slice there are none, and the walk comes to its end.
-/

set_option autoImplicit false

namespace Bristlemouth.Mcuboot

open Bytes

/-- The sum of two `usize`s below `limit`. -/
def addUsize (limit a b : Nat) : Option Nat := if a + b < limit then some (a + b) else none

/-- `&bytes[start..stop]`. -/
def index (bytes : Bytes) (start stop : Nat) : Option Bytes :=
  if start ≤ stop ∧ stop ≤ bytes.length then some (bytes.slice start (stop - start)) else none

/-- `pair`, whose sum and index are checked ones. -/
def pairChecked (limit : Nat) (bytes : Bytes) (off : Nat) : Except TlvError (UInt16 × UInt16) :=
  match (addUsize limit off 4).bind (index bytes off) with
  | some b => .ok (u16At b 0, u16At b 2)
  | none => .error .truncated

namespace TlvArea

def parseFromChecked (limit : Nat) (image : Bytes) (start protect : Nat) (magic total : UInt16) :
    Option (Except TlvError TlvArea) :=
  if magic ≠ infoMagic then some (.error .badMagic)
  else do
    let protEnd ← addUsize limit start protect
    let endOff ← addUsize limit protEnd total.toNat
    if image.length < endOff then some (.error .truncated)
    else do
      let first ← addUsize limit start tlvInfoSize
      some (.ok ⟨image, start, first, protEnd, endOff⟩)

def parseChecked (limit : Nat) (image : Bytes) (header : Header) : Option (Except TlvError TlvArea) :=
  match header.tlvOff with
  | none => some (.error .truncated)
  | some start =>
    let protect := header.protectTlvSize.toNat
    match pairChecked limit image start with
    | .error e => some (.error e)
    | .ok (magic, total) =>
      if magic = protInfoMagic then
        if protect ≠ total.toNat then some (.error .protectedSize)
        else do
          let second ← addUsize limit start protect
          match pairChecked limit image second with
          | .error e => some (.error e)
          | .ok (magic, total) => parseFromChecked limit image start protect magic total
      else if protect ≠ 0 then some (.error .protectedSize)
      else parseFromChecked limit image start protect magic total

def entryAtChecked (limit : Nat) (area : TlvArea) (off : Nat) :
    Option (Except TlvError (Tlv × Nat)) := do
  let valueOff ← addUsize limit off entrySize
  if area.endOff < valueOff then some (.error .truncated)
  else match pairChecked limit area.image off with
    | .error e => some (.error e)
    | .ok (kind, len) => do
      let valueEnd ← addUsize limit valueOff len.toNat
      if area.endOff < valueEnd then some (.error .truncated)
      else do
        let value ← index area.image valueOff valueEnd
        some (.ok (⟨kind, value, decide (off < area.protEnd)⟩, valueEnd))

def skipInfoChecked (limit : Nat) (area : TlvArea) (off : Nat) : Option Nat :=
  if area.protEnd ≠ area.start ∧ off = area.protEnd then addUsize limit off tlvInfoSize else some off

/-- `TlvIter::next`: the item, where its entry is, and the iterator's offset afterwards. -/
def nextChecked (limit : Nat) (area : TlvArea) (off : Nat) :
    Option (Option (Nat × Except TlvError Tlv × Nat)) :=
  if area.endOff ≤ off then some none
  else do
    let entryOff ← skipInfoChecked limit area off
    match ← entryAtChecked limit area entryOff with
    | .ok (tlv, next) => some (some (entryOff, .ok tlv, next))
    | .error e => some (some (entryOff, .error e, area.endOff))

/-- The whole walk from an offset on, item by item, to the call that returns `None`. -/
inductive Yields (limit : Nat) (area : TlvArea) : Nat → List (Nat × Except TlvError Tlv) → Prop
  | done {off : Nat} (h : nextChecked limit area off = some none) : Yields limit area off []
  | item {off entryOff off' : Nat} {item : Except TlvError Tlv}
      {items : List (Nat × Except TlvError Tlv)}
      (h : nextChecked limit area off = some (some (entryOff, item, off')))
      (rest : Yields limit area off' items) : Yields limit area off ((entryOff, item) :: items)

end TlvArea

/-- Offsets go up, a value is where its entry says, and only the last item may be an error. -/
inductive InOrder (image : Bytes) : Nat → List (Nat × Except TlvError Tlv) → Prop
  | nil {least : Nat} : InOrder image least []
  | failed {least off : Nat} {e : TlvError} (hoff : least ≤ off) :
      InOrder image least [(off, .error e)]
  | entry {least off : Nat} {tlv : Tlv} {items : List (Nat × Except TlvError Tlv)}
      (hoff : least ≤ off) (htlv : tlv.IsAt image off) (rest : InOrder image (off + 1) items) :
      InOrder image least ((off, .ok tlv) :: items)

theorem InOrder.mono {image : Bytes} {least least' : Nat} {items : List (Nat × Except TlvError Tlv)}
    (h : InOrder image least' items) (hle : least ≤ least') : InOrder image least items := by
  cases h with
  | nil => exact .nil
  | failed hoff => exact .failed (hle.trans hoff)
  | entry hoff htlv rest => exact .entry (hle.trans hoff) htlv rest

theorem InOrder.le_of_mem {image : Bytes} {least : Nat} {items : List (Nat × Except TlvError Tlv)}
    (h : InOrder image least items) {x : Nat × Except TlvError Tlv} (hmem : x ∈ items) :
    least ≤ x.1 := by
  induction h with
  | nil => cases hmem
  | failed hoff =>
    rw [List.mem_singleton] at hmem
    rw [hmem]
    exact hoff
  | entry hoff htlv rest ih =>
    rcases List.mem_cons.mp hmem with rfl | hrest
    · exact hoff
    · have hle := ih hrest
      omega

theorem InOrder.pairwise {image : Bytes} {least : Nat} {items : List (Nat × Except TlvError Tlv)}
    (h : InOrder image least items) : (items.map Prod.fst).Pairwise (· < ·) := by
  induction h with
  | nil => exact .nil
  | failed hoff => exact List.pairwise_singleton _ _
  | entry hoff htlv rest ih =>
    refine List.pairwise_cons.mpr ⟨?_, ih⟩
    intro other hother
    obtain ⟨x, hx, rfl⟩ := List.mem_map.mp hother
    exact rest.le_of_mem hx

theorem InOrder.isAt {image : Bytes} {least off : Nat} {items : List (Nat × Except TlvError Tlv)}
    (h : InOrder image least items) {tlv : Tlv} (hmem : (off, .ok tlv) ∈ items) :
    tlv.IsAt image off := by
  induction h with
  | nil => cases hmem
  | failed hoff =>
    rw [List.mem_singleton] at hmem
    cases hmem
  | entry hoff htlv rest ih =>
    rcases List.mem_cons.mp hmem with heq | hrest
    · cases heq
      exact htlv
    · exact ih hrest

theorem InOrder.one_error {image : Bytes} {least : Nat} {items : List (Nat × Except TlvError Tlv)}
    (h : InOrder image least items) : ∃ tlvs : List Tlv, items.map Prod.snd = tlvs.map .ok ∨
      ∃ e, items.map Prod.snd = tlvs.map .ok ++ [.error e] := by
  induction h with
  | nil => exact ⟨[], .inl rfl⟩
  | @failed _ _ e hoff => exact ⟨[], .inr ⟨e, rfl⟩⟩
  | @entry _ _ tlv items hoff htlv rest ih =>
    obtain ⟨tlvs, hmap | ⟨e, hmap⟩⟩ := ih
    · exact ⟨tlv :: tlvs, .inl (congrArg (Except.ok tlv :: ·) hmap)⟩
    · exact ⟨tlv :: tlvs, .inr ⟨e, congrArg (Except.ok tlv :: ·) hmap⟩⟩

section

variable {limit : Nat} {image : Bytes} {header : Header} {area : TlvArea} {off : Nat}

theorem addUsize_of_lt {a b : Nat} (h : a + b < limit) : addUsize limit a b = some (a + b) := if_pos h

theorem index_of_le {bytes : Bytes} {start stop : Nat} (hle : start ≤ stop) (hstop : stop ≤ bytes.length) :
    index bytes start stop = some (bytes.slice start (stop - start)) := if_pos ⟨hle, hstop⟩

theorem pairChecked_eq {bytes : Bytes} (h : bytes.length < limit) (off : Nat) :
    pairChecked limit bytes off = pair bytes off := by
  unfold pairChecked pair
  by_cases hroom : off + 4 ≤ bytes.length
  · have hlen : off + 4 - off = 4 := by omega
    rw [addUsize_of_lt (by omega), Option.bind_some, index_of_le (by omega) hroom, if_pos hroom, hlen]
    simp only
    rw [u16At_slice (by omega), u16At_slice (by omega), Nat.add_zero]
  · rw [if_neg hroom]
    by_cases hsum : off + 4 < limit
    · rw [addUsize_of_lt hsum, Option.bind_some, index, if_neg (by omega)]
    · rw [addUsize, if_neg hsum]
      rfl

theorem pair_ok {bytes : Bytes} {magic total : UInt16} (h : pair bytes off = .ok (magic, total)) :
    off + 4 ≤ bytes.length := by
  unfold pair at h
  split_ifs at h with hroom
  exact hroom

namespace TlvArea

theorem parseFromChecked_eq {start protect : Nat} {magic total : UInt16} (hlimit : 2 ^ 32 ≤ limit)
    (hlen : 2 * image.length < limit) (hstart : start + 4 ≤ image.length) (hprotect : protect < 2 ^ 16) :
    parseFromChecked limit image start protect magic total
      = some (parseFrom image start protect magic total) := by
  unfold parseFromChecked parseFrom
  have htotal : total.toNat < 2 ^ 16 := total.toNat_lt
  by_cases hmagic : magic = infoMagic
  · rw [if_neg (by simpa using hmagic), if_neg (by simpa using hmagic)]
    rw [addUsize_of_lt (show start + protect < limit by omega)]
    change (addUsize limit (start + protect) total.toNat).bind _ = _
    rw [addUsize_of_lt (show start + protect + total.toNat < limit by omega), Option.bind_some]
    by_cases hend : image.length < start + protect + total.toNat
    · rw [if_pos hend]
      exact congrArg some (if_pos hend).symm
    · rw [if_neg hend, addUsize_of_lt (show start + tlvInfoSize < limit by rw [tlvInfoSize]; omega)]
      exact congrArg some (if_neg hend).symm
  · rw [if_pos hmagic, if_pos hmagic]

/-- `parse` panics on no header and no slice. -/
theorem parseChecked_eq (hlimit : 2 ^ 32 ≤ limit) (hlen : 2 * image.length < limit) :
    parseChecked limit image header = some (parse image header) := by
  unfold parseChecked parse
  have hprotect : header.protectTlvSize.toNat < 2 ^ 16 := header.protectTlvSize.toNat_lt
  cases header.tlvOff with
  | none => rfl
  | some start =>
    simp only
    rw [pairChecked_eq (by omega)]
    change _ = some (pair image start >>= fun x => _)
    cases hpair : pair image start with
    | error e => rfl
    | ok mt =>
      obtain ⟨magic, total⟩ := mt
      have hstart := pair_ok hpair
      change _ = some (if magic = protInfoMagic then _ else _)
      simp only
      by_cases hmagic : magic = protInfoMagic
      · rw [if_pos hmagic, if_pos hmagic]
        by_cases hsize : header.protectTlvSize.toNat = total.toNat
        · rw [if_neg (by simpa using hsize), if_neg (by simpa using hsize),
            addUsize_of_lt (show start + header.protectTlvSize.toNat < limit by omega)]
          simp only [Option.bind_eq_bind, Option.bind_some]
          rw [pairChecked_eq (by omega)]
          cases hsecond : pair image (start + header.protectTlvSize.toNat) with
          | error e => rfl
          | ok mt => exact parseFromChecked_eq hlimit hlen hstart hprotect
        · rw [if_pos hsize, if_pos hsize]
      · rw [if_neg hmagic, if_neg hmagic]
        by_cases hzero : header.protectTlvSize.toNat = 0
        · rw [if_neg (by simpa using hzero), if_neg (by simpa using hzero)]
          exact parseFromChecked_eq hlimit hlen hstart hprotect
        · rw [if_pos hzero, if_pos hzero]

theorem entryAtChecked_eq (hlen : 2 * area.image.length < limit) (hlimit : 2 ^ 32 ≤ limit)
    (hend : area.endOff ≤ area.image.length) (hoff : off ≤ area.endOff + tlvInfoSize) :
    entryAtChecked limit area off = some (area.entryAt off) := by
  have hfour : entrySize = 4 := rfl
  have hinfo : tlvInfoSize = 4 := rfl
  unfold entryAtChecked entryAt
  rw [addUsize_of_lt (show off + entrySize < limit by omega)]
  change (if area.endOff < off + entrySize then _ else _) = _
  simp only
  by_cases hfit : area.endOff < off + entrySize
  · rw [if_pos hfit, if_pos hfit]
  · rw [if_neg hfit, if_neg hfit, pairChecked_eq (by omega)]
    cases hpair : pair area.image off with
    | error e => rfl
    | ok kl =>
      obtain ⟨kind, len⟩ := kl
      have hlt : len.toNat < 2 ^ 16 := len.toNat_lt
      change (addUsize limit (off + entrySize) len.toNat).bind _
        = some (if area.endOff < off + entrySize + len.toNat then _ else _)
      rw [addUsize_of_lt (show off + entrySize + len.toNat < limit by omega), Option.bind_some]
      by_cases hvalue : area.endOff < off + entrySize + len.toNat
      · rw [if_pos hvalue, if_pos hvalue]
      · rw [if_neg hvalue, if_neg hvalue, index_of_le (by omega) (by omega), Nat.add_sub_cancel_left]
        rfl

theorem skipInfoChecked_eq (hoff : off + tlvInfoSize < limit) :
    skipInfoChecked limit area off = some (area.skipInfo off) := by
  unfold skipInfoChecked skipInfo
  by_cases hskip : area.protEnd ≠ area.start ∧ off = area.protEnd
  · rw [if_pos hskip, if_pos hskip, addUsize_of_lt hoff]
  · rw [if_neg hskip, if_neg hskip]

theorem skipInfo_le (off : Nat) : area.skipInfo off ≤ off + tlvInfoSize := by
  unfold skipInfo
  split_ifs
  · exact Nat.le_refl _
  · exact Nat.le_add_right _ _

/-- No call of the iterator panics. -/
theorem nextChecked_eq (hlimit : 2 ^ 32 ≤ limit) (hlen : 2 * area.image.length < limit)
    (hend : area.endOff ≤ area.image.length) (off : Nat) : nextChecked limit area off
      = some ((area.next off).map fun x => (area.skipInfo off, x.1, x.2)) := by
  unfold nextChecked next
  have hinfo : tlvInfoSize = 4 := rfl
  by_cases hdone : area.endOff ≤ off
  · rw [if_pos hdone, if_pos hdone]
    rfl
  · have hskip := @skipInfo_le area off
    rw [if_neg hdone, if_neg hdone, skipInfoChecked_eq (by omega)]
    change (entryAtChecked limit area (area.skipInfo off)).bind _ = _
    rw [entryAtChecked_eq hlen hlimit hend (by omega), Option.bind_some]
    cases area.entryAt (area.skipInfo off) with
    | error e => rfl
    | ok x => rfl

/-- The walk from any offset ends, and is in order from there on. -/
theorem exists_yields (hlimit : 2 ^ 32 ≤ limit) (hlen : 2 * area.image.length < limit)
    (hend : area.endOff ≤ area.image.length) (off : Nat) :
    ∃ items, Yields limit area off items ∧ items.map Prod.snd = area.iterFrom off ∧
      InOrder area.image off items := by
  induction hleft : area.endOff - off using Nat.strong_induction_on generalizing off with
  | h left ih =>
    have hnext := nextChecked_eq hlimit hlen hend off
    cases hitem : area.next off with
    | none =>
      rw [hitem] at hnext
      refine ⟨[], .done hnext, ?_, .nil⟩
      have hdone : area.endOff ≤ off := by
        by_contra hnot
        unfold next at hitem
        rw [if_neg hnot] at hitem
        split at hitem <;> cases hitem
      rw [iterFrom_done hdone]
      rfl
    | some x =>
      obtain ⟨item, off'⟩ := x
      rw [hitem] at hnext
      obtain ⟨hlt, hin⟩ := area.lt_of_next hitem
      obtain ⟨items, hyields, hmap, hordered⟩ := ih (area.endOff - off') (by omega) off' rfl
      refine ⟨(area.skipInfo off, item) :: items, .item hnext hyields, ?_, ?_⟩
      · rw [iterFrom_cons hitem, List.map_cons, hmap]
      · have hskip := area.le_skipInfo off
        cases item with
        | error e =>
          have hstop : off' = area.endOff := by
            unfold next at hitem
            rw [if_neg (by omega)] at hitem
            split at hitem
            · cases hitem
            · cases hitem
              rfl
          rw [hstop, iterFrom_done (Nat.le_refl _), List.map_eq_nil_iff] at hmap
          rw [hmap]
          exact .failed hskip
        | ok tlv =>
          obtain ⟨-, hentry⟩ := next_eq_ok.mp hitem
          obtain ⟨hat, hstop⟩ := isAt_of_entryAt hentry hend
          exact .entry hskip hat (hordered.mono hstop)

/-- On any header and slice, `parse` and the iterator over what it finds are free of panics; the walk
ends, forwards through the slice. `2 * image.length < limit` is Rust's bound on a slice. -/
theorem parse_any_bytes (hlimit : 2 ^ 32 ≤ limit) (hlen : 2 * image.length < limit) :
    parseChecked limit image header = some (parse image header) ∧
      ∀ area, parse image header = .ok area → ∃ items, Yields limit area area.first items ∧
        items.map Prod.snd = area.iter ∧ (items.map Prod.fst).Pairwise (· < ·) ∧
        (∀ off tlv, (off, .ok tlv) ∈ items → tlv.IsAt image off) ∧
        ∃ tlvs : List Tlv, items.map Prod.snd = tlvs.map .ok ∨
          ∃ e, items.map Prod.snd = tlvs.map .ok ++ [.error e] := by
  refine ⟨parseChecked_eq hlimit hlen, ?_⟩
  intro area hparse
  obtain ⟨himage, -, -, -, -, hend⟩ := parse_ok hparse
  rw [← himage] at hlen hend ⊢
  obtain ⟨items, hyields, hmap, hordered⟩ := exists_yields hlimit hlen hend area.first
  exact ⟨items, hyields, hmap, hordered.pairwise, fun off tlv => hordered.isAt, hordered.one_error⟩

theorem parse_any_bytes_overrun : ∃ area items,
    parseChecked (2 ^ 32) overrunImage overrunHeader = some (.ok area) ∧
      Yields (2 ^ 32) area area.first items ∧ items.map Prod.snd = area.iter ∧
      (items.map Prod.fst).Pairwise (· < ·) ∧
      (∀ off tlv, (off, .ok tlv) ∈ items → tlv.IsAt overrunImage off) := by
  have hparse : parse overrunImage overrunHeader = .ok ⟨overrunImage, 32, 36, 42, 54⟩ := by decide
  obtain ⟨hchecked, hwalk⟩ := @parse_any_bytes (2 ^ 32) overrunImage overrunHeader (Nat.le_refl _) (by decide)
  obtain ⟨items, hyields, hmap, hordered, hat, -⟩ := hwalk _ hparse
  exact ⟨_, items, hchecked.trans (congrArg some hparse), hyields, hmap, hordered, hat⟩

end TlvArea

end

end Bristlemouth.Mcuboot
