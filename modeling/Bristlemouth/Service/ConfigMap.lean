import Bristlemouth.Bcmp.Bodies
import Bristlemouth.Config.CborMap
import Bristlemouth.Service.SysInfo

/-!
# The bodies of config_map

`service/config_map.rs`: the request names a partition, the reply carries its map. The handler asks for the
map twice, first to measure it and then to have it written behind the reply's other fields.
-/

set_option autoImplicit false

namespace Bristlemouth.Service.ConfigMap

open Bytes Config Bristlemouth.Parser

def requestNumFields : Nat := 1

def replyNumFields : Nat := 5

def partitionIdSys : UInt32 := 1

def partitionIdHw : UInt32 := 2

def partitionIdUser : UInt32 := 3

/-- The partition a request names. -/
def partition (partitionId : UInt32) : Option Partition :=
  if partitionId = partitionIdSys then some .system
  else if partitionId = partitionIdHw then some .hardware
  else if partitionId = partitionIdUser then some .user
  else none

/-- `node_id` -/
def nodeIdKey : Bytes := [0x6e, 0x6f, 0x64, 0x65, 0x5f, 0x69, 0x64]

/-- `partition_id` -/
def partitionIdKey : Bytes := [0x70, 0x61, 0x72, 0x74, 0x69, 0x74, 0x69, 0x6f, 0x6e, 0x5f, 0x69, 0x64]

/-- `success` -/
def successKey : Bytes := [0x73, 0x75, 0x63, 0x63, 0x65, 0x73, 0x73]

/-- `cbor_encoded_map_len` -/
def cborEncodedMapLenKey : Bytes :=
  [0x63, 0x62, 0x6f, 0x72, 0x5f, 0x65, 0x6e, 0x63, 0x6f, 0x64, 0x65, 0x64, 0x5f, 0x6d, 0x61, 0x70, 0x5f,
    0x6c, 0x65, 0x6e]

/-- `cbor_data` -/
def cborDataKey : Bytes := [0x63, 0x62, 0x6f, 0x72, 0x5f, 0x64, 0x61, 0x74, 0x61]

structure ConfigMapRequest where
  partitionId : UInt32
deriving DecidableEq

structure ConfigMapReply where
  nodeId : UInt64
  partitionId : UInt32
  success : Bool
  cborData : Bytes
deriving DecidableEq

structure DecodedConfigMapReply where
  nodeId : UInt64
  partitionId : UInt32
  success : Bool
  cborEncodedMapLen : UInt32
  cborData : Option CborString
deriving DecidableEq

/-! ### Encoding -/

section
variable [Cbor2]

def ConfigMapRequest.encode (r : ConfigMapRequest) (out : Bytes) : Bytes × Except CborError Nat :=
  encodeMap out requestNumFields fun w => w.uint partitionIdKey r.partitionId.toUInt64

/-- The reply up to the bytes of the map, with the head of a byte string of `len`. -/
def encodeHead (nodeId : UInt64) (partitionId : UInt32) (success : Bool) (len : Nat) (out : Bytes) :
    Bytes × Except CborError Nat :=
  if 2 ^ 32 ≤ len then (out, .error .outOfMemory)
  else encodeMap out replyNumFields fun w =>
    ((((w.uint nodeIdKey nodeId).uint partitionIdKey partitionId.toUInt64).uint successKey
      (if success then 1 else 0)).uint cborEncodedMapLenKey (UInt32.ofNat len).toUInt64).text cborDataKey
      |>.push (.bytes len)

/-- The head, and the map behind it if there is room. -/
def ConfigMapReply.encode (r : ConfigMapReply) (out : Bytes) : Bytes × Except CborError Nat :=
  match encodeHead r.nodeId r.partitionId r.success r.cborData.length out with
  | (out, .error e) => (out, .error e)
  | (out, .ok head) =>
    if head + r.cborData.length ≤ out.length then
      (out.copyAt head r.cborData, .ok (head + r.cborData.length))
    else (out, .error .outOfMemory)

end

/-! ### Decoding -/

namespace ConfigMapRequest

def decodeInto (u : Usize) (buf : Bytes) : Into ConfigMapRequest Unit := do
  let (map, value) ← reading (enterMap u buf requestNumFields)
  let value ← reading (skipKey u value)
  let n ← reading (value.extract u)
  modify fun d => { d with partitionId := n.toUInt32 }
  let value ← reading (value.advance u).get
  reading (leaveMap u map value)

end ConfigMapRequest

namespace DecodedConfigMapReply

/-- A key that is stepped over, and the argument of the value behind it. -/
def argument (u : Usize) (value : Value) (set : UInt64 → DecodedConfigMapReply → DecodedConfigMapReply) :
    Into DecodedConfigMapReply Value := do
  let value ← reading (skipKey u value)
  let n ← reading (value.extract u)
  modify (set n)
  reading (value.advance u).get

/-- Without success, or without a length, the last value is not looked at. -/
def decodeInto (u : Usize) (buf : Bytes) : Into DecodedConfigMapReply Unit := do
  modify fun d => { d with cborData := none }
  let (map, value) ← reading (enterMap u buf replyNumFields)
  let value ← argument u value fun n d => { d with nodeId := n }
  let value ← argument u value fun n d => { d with partitionId := n.toUInt32 }
  let value ← argument u value fun n d => { d with success := n ≠ 0 }
  let value ← argument u value fun n d => { d with cborEncodedMapLen := n.toUInt32 }
  let value ← reading (skipKey u value)
  let d ← get
  if d.cborEncodedMapLen = 0 ∨ d.success = false then return
  else if !value.isByteString then reading (fail .unreachable)
  else
    let len := d.cborEncodedMapLen.toNat
    let copied ← reading (value.copyString u len).2
    if !copied.all then reading (fail .outOfMemory)
    else if copied.total ≠ len then reading (fail .illegalType)
    else
      let data ← reading (value.string u)
      let value ← reading (value.advance u).get
      reading (leaveMap u map value)
      modify fun d => { d with cborData := some data }

end DecodedConfigMapReply

/-! ### The handler -/

/-- How a partition's map is asked for. -/
abbrev MapOf : Type := Partition → Bytes → Option (Bytes × Except MapError Nat)

/-- The first call, with no buffer: the length, if there is a map. -/
def measure (map : MapOf) (p : Partition) : Option (Except MapError (Option (Partition × Nat))) := do
  match ← map p [] with
  | (_, .ok len) => some (.ok (some (p, len)))
  | (_, .error (.tooSmall len)) => some (.ok (some (p, len)))
  | (_, .error .noMap) => some (.ok none)
  | (_, .error .unreachable) => some (.error .unreachable)

section
variable [Cbor2]

/-- The reply once it is known whether there is a map and how long it is. -/
def writeReply (u : Usize) (nodeId : UInt64) (partitionId : UInt32) (map : MapOf)
    (found : Option (Partition × Nat)) (out : Bytes) : Option (Bytes × Option Nat) :=
  let len := (found.map Prod.snd).getD 0
  match encodeHead nodeId partitionId found.isSome len out with
  | (out, .error _) => some (out, none)
  | (out, .ok head) =>
    if head + len ≤ u.max ∧ head + len ≤ out.length then
      match found with
      | none => some (out, some (head + len))
      | some (p, _) => do
        match ← map p (out.slice head len) with
        | (tail, .ok _) => some (out.copyAt head tail, some (head + len))
        | (tail, .error _) => some (out.copyAt head tail, none)
    else some (out, none)

/-- The buffer afterwards, and the reply's length if there is one. -/
def handle (u : Usize) (request : Bytes) (nodeId : UInt64) (map : MapOf) (out : Bytes) :
    Option (Bytes × Option Nat) :=
  match (ConfigMapRequest.decodeInto u request).into ⟨0⟩ with
  | (_, .error (.error _)) => some (out, none)
  | (_, .error .panic) => none
  | (_, .error .diverge) => none
  | (req, .ok ()) =>
    match partition req.partitionId with
    | none => writeReply u nodeId req.partitionId map none out
    | some p => do
      match ← measure map p with
      | .error _ => some (out, none)
      | .ok found => writeReply u nodeId req.partitionId map found out

end

/-! ### What is written -/

/-- The reply's head: everything but the bytes of the map. -/
def headPairs (nodeId : UInt64) (partitionId : UInt32) (success : Bool) (len : Nat) : List (Bytes × Bytes) :=
  [(nodeIdKey, uintItem nodeId), (partitionIdKey, uintItem partitionId.toUInt64),
    (successKey, uintItem (if success then 1 else 0)),
    (cborEncodedMapLenKey, uintItem (UInt32.ofNat len).toUInt64),
    (cborDataKey, Cbor.preferredHead 2 len)]

/-- The entries of the reply's map. -/
def ConfigMapReply.pairs (r : ConfigMapReply) : List (Bytes × Bytes) :=
  [(nodeIdKey, uintItem r.nodeId), (partitionIdKey, uintItem r.partitionId.toUInt64),
    (successKey, uintItem (if r.success then 1 else 0)),
    (cborEncodedMapLenKey, uintItem (UInt32.ofNat r.cborData.length).toUInt64),
    (cborDataKey, (Cbor.Scalar.bytes r.cborData).encode)]

theorem bodyOf_pairs (r : ConfigMapReply) : bodyOf r.pairs =
    bodyOf (headPairs r.nodeId r.partitionId r.success r.cborData.length) ++ r.cborData := by
  simp [bodyOf, ConfigMapReply.pairs, headPairs, Ahead.pairItems, Cbor.Scalar.encode]

/-- What a reply takes besides its map. -/
theorem length_bodyOf_pairs (r : ConfigMapReply) : (bodyOf r.pairs).length ≤ r.cborData.length + 200 := by
  have hnode := length_uintItem_le r.nodeId
  have hpartition := length_uintItem_le r.partitionId.toUInt64
  have hsuccess := length_uintItem_le (if r.success then 1 else 0)
  have hlen := length_uintItem_le (UInt32.ofNat r.cborData.length).toUInt64
  have hhead := Cbor.length_preferredHead_le 2 r.cborData.length
  have hkeys : (Cbor.Scalar.text nodeIdKey).encode.length + (Cbor.Scalar.text partitionIdKey).encode.length +
      (Cbor.Scalar.text successKey).encode.length + (Cbor.Scalar.text cborEncodedMapLenKey).encode.length +
      (Cbor.Scalar.text cborDataKey).encode.length ≤ 100 := by decide
  have hmap := Cbor.length_preferredHead_le 5 (0 + 1 + 1 + 1 + 1 + 1)
  rw [bodyOf_pairs]
  simp only [bodyOf, headPairs, Ahead.pairItems, List.length_append, List.flatMap_cons, List.flatMap_nil,
    List.length_cons, List.length_nil, List.cons_append, List.nil_append, List.flatten_cons, List.flatten_nil]
  omega

section
variable [Cbor2] [Cbor2.Minimal] [Cbor2.Refusing]

theorem request_encodes (r : ConfigMapRequest) :
    Encodes (bodyOf [(partitionIdKey, uintItem r.partitionId.toUInt64)]) r.encode := by
  apply encodes_map
  intro w
  exact (Wrote.uint w partitionIdKey r.partitionId.toUInt64).cons (.nil _)

theorem encodeHead_encodes (nodeId : UInt64) (partitionId : UInt32) (success : Bool) {len : Nat}
    (hlen : len < 2 ^ 32) :
    Encodes (bodyOf (headPairs nodeId partitionId success len)) (encodeHead nodeId partitionId success len) := by
  have hmap : Encodes (bodyOf (headPairs nodeId partitionId success len)) fun out =>
      encodeMap out replyNumFields fun w =>
        ((((w.uint nodeIdKey nodeId).uint partitionIdKey partitionId.toUInt64).uint successKey
          (if success then 1 else 0)).uint cborEncodedMapLenKey (UInt32.ofNat len).toUInt64).text cborDataKey
          |>.push (.bytes len) := by
    apply encodes_map
    intro w
    exact (Wrote.uint w nodeIdKey nodeId).cons <| (Wrote.uint _ partitionIdKey partitionId.toUInt64).cons <|
      (Wrote.uint _ successKey (if success then 1 else 0)).cons <|
      (Wrote.uint _ cborEncodedMapLenKey (UInt32.ofNat len).toUInt64).cons <|
      ((Wrote.text _ cborDataKey).trans (Wrote.push _ (.bytes len))).cons (.nil _)
  intro out
  have hout := hmap out
  rw [encodeHead, if_neg (Nat.not_le.mpr hlen)]
  exact hout

theorem reply_encodes (r : ConfigMapReply) (hlen : r.cborData.length < 2 ^ 32) :
    Encodes (bodyOf r.pairs) r.encode := by
  intro out
  have hhead := encodeHead_encodes r.nodeId r.partitionId r.success hlen out
  rw [bodyOf_pairs, ConfigMapReply.encode]
  generalize bodyOf (headPairs r.nodeId r.partitionId r.success r.cborData.length) = head at hhead ⊢
  rw [List.length_append]
  by_cases hfit : head.length ≤ out.length
  · rw [if_pos hfit] at hhead
    have hcopied := length_copyAt out 0 head (by omega)
    rw [hhead]
    dsimp only
    rw [hcopied]
    by_cases hroom : head.length + r.cborData.length ≤ out.length
    · have hbehind : (out.copyAt 0 head).copyAt (0 + head.length) r.cborData = out.copyAt 0 (head ++ r.cborData) :=
        copyAt_behind head r.cborData (Nat.zero_le _)
      rw [Nat.zero_add] at hbehind
      rw [if_pos hroom, if_pos hroom, hbehind]
    · rw [if_neg hroom, if_neg hroom]
  · rw [if_neg hfit] at hhead
    rw [if_neg (by omega)]
    generalize encodeHead r.nodeId r.partitionId r.success r.cborData.length out = written at hhead
    obtain ⟨out', result⟩ := written
    cases hhead
    rfl

end

/-! ### What is read back -/

theorem argument_ok {u : Usize} {buf key rest : Bytes} {n : UInt64} {items : List Bytes} {v : Value}
    (set : UInt64 → DecodedConfigMapReply → DecodedConfigMapReply)
    (h : Ahead buf ((Cbor.Scalar.text key).encode :: uintItem n :: items) rest v) :
    ∃ w, Ahead buf items rest w ∧ ∀ (f : Value → Into DecodedConfigMapReply Unit) (d : DecodedConfigMapReply),
      (DecodedConfigMapReply.argument u v set >>= f).into d = (f w).into (set n d) := by
  obtain ⟨x, hx, hxahead⟩ := skipKey_ok (u := u) h
  obtain ⟨-, hextract⟩ := unsigned_ok (u := u) hxahead
  obtain ⟨w, hw, hahead⟩ := advance_ok (u := u) hxahead
  refine ⟨w, hahead, fun f d => ?_⟩
  rw [DecodedConfigMapReply.argument]
  simp only [bind_assoc, hx, hextract, hw, reading_ok_bind, into_modify_bind]

theorem fine_bytes (d : Nat) {body : Bytes} (h : body.length < 2 ^ 64) : Fine d (Cbor.Scalar.bytes body).encode := by
  have hh := Cbor.isHead_preferredHead 2 h
  exact ⟨.string (.inl rfl) hh, untagged_append _ (untagged_isHead hh (by decide) (by decide)) hh.length_pos⟩

theorem request_decodes (u : Usize) (r d : ConfigMapRequest) :
    (ConfigMapRequest.decodeInto u (bodyOf [(partitionIdKey, uintItem r.partitionId.toUInt64)])).into d =
      (r, .ok ()) := by
  have hlen := length_uintItem_le r.partitionId.toUInt64
  have hshort : (bodyOf [(partitionIdKey, uintItem r.partitionId.toUInt64)]).length < 2 ^ 31 := by
    have hkey : (Cbor.Scalar.text partitionIdKey).encode.length = 13 := rfl
    have hhead : (Cbor.preferredHead 5 1).length = 1 := rfl
    simp only [bodyOf, Ahead.pairItems, List.length_cons, List.length_nil, List.flatMap_cons, List.flatMap_nil,
      List.length_append, List.flatten_cons, List.flatten_nil, List.append_nil, hkey, hhead]
    omega
  have hfine : ∀ pair ∈ [(partitionIdKey, uintItem r.partitionId.toUInt64)],
      pair.1.length < 2 ^ 64 ∧ Fine 9 pair.2 := by
    intro pair hpair
    obtain rfl := List.mem_singleton.mp hpair
    exact ⟨(by decide : partitionIdKey.length < 2 ^ 64), fine_uintItem 9 _⟩
  obtain ⟨map, v, hmap, hmapahead, h⟩ := enterMap_ok (u := u) rfl hshort (by simp) hfine
  obtain ⟨x, hx, hxahead⟩ := skipKey_ok (u := u) h
  obtain ⟨-, hextract⟩ := unsigned_ok (u := u) hxahead
  obtain ⟨w, hw, hahead⟩ := advance_ok (u := u) hxahead
  have hleave := leaveMap_ok (u := u) rfl (by simp) hmapahead hahead
  have hmap' : enterMap u (bodyOf [(partitionIdKey, uintItem r.partitionId.toUInt64)]) requestNumFields =
      .ok (map, v) := hmap
  rw [ConfigMapRequest.decodeInto]
  simp only [hmap', hx, hextract, hw, hleave, reading_ok_bind, into_modify_bind, into_reading,
    UInt32.toUInt32_toUInt64]

/-- The data a decoded reply has: none, unless there is some and it is vouched for. -/
def Carries (u : Usize) (r : ConfigMapReply) (data : Option CborString) : Prop :=
  if r.success = false ∨ r.cborData = [] then data = none
  else ∃ s, data = some s ∧ s.len = r.cborData.length ∧
    ∀ bytes, s.eqBytes u bytes = .ok (decide (bytes = r.cborData))

theorem decode_ok {u : Usize} {r : ConfigMapReply} (hshort : (bodyOf r.pairs).length < 2 ^ 31)
    (d : DecodedConfigMapReply) : ∃ data, (DecodedConfigMapReply.decodeInto u (bodyOf r.pairs)).into d =
        (⟨r.nodeId, r.partitionId, r.success, UInt32.ofNat r.cborData.length, data⟩, .ok ()) ∧
      Carries u r data := by
  have hdata : r.cborData.length < 2 ^ 31 := by
    have hle := congrArg List.length (bodyOf_pairs r)
    rw [List.length_append] at hle
    omega
  have hfine : ∀ pair ∈ r.pairs, pair.1.length < 2 ^ 64 ∧ Fine 9 pair.2 := by
    intro pair hpair
    simp only [ConfigMapReply.pairs, List.mem_cons, List.not_mem_nil, or_false] at hpair
    rcases hpair with rfl | rfl | rfl | rfl | rfl
    · exact ⟨(by decide : nodeIdKey.length < 2 ^ 64), fine_uintItem 9 _⟩
    · exact ⟨(by decide : partitionIdKey.length < 2 ^ 64), fine_uintItem 9 _⟩
    · exact ⟨(by decide : successKey.length < 2 ^ 64), fine_uintItem 9 _⟩
    · exact ⟨(by decide : cborEncodedMapLenKey.length < 2 ^ 64), fine_uintItem 9 _⟩
    · exact ⟨(by decide : cborDataKey.length < 2 ^ 64), fine_bytes 9 (by omega)⟩
  have hcount : r.pairs.length = 5 := rfl
  obtain ⟨map, v, hmap, hmapahead, h⟩ := enterMap_ok (u := u) rfl hshort (by omega) hfine
  obtain ⟨v1, h1, hgo1⟩ := argument_ok (u := u) (fun n d => { d with nodeId := n }) h
  obtain ⟨v2, h2, hgo2⟩ := argument_ok (u := u) (fun n d => { d with partitionId := n.toUInt32 }) h1
  obtain ⟨v3, h3, hgo3⟩ := argument_ok (u := u) (fun n d => { d with success := decide (n ≠ 0) }) h2
  obtain ⟨v4, h4, hgo4⟩ := argument_ok (u := u) (fun n d => { d with cborEncodedMapLen := n.toUInt32 }) h3
  obtain ⟨v5, hgo5, h5⟩ := skipKey_ok (u := u) h4
  have hh := Cbor.isHead_preferredHead 2 (show r.cborData.length < 2 ^ 64 by omega)
  have hsuccess : decide ((if r.success = true then (1 : UInt64) else 0) ≠ 0) = r.success := by
    cases r.success <;> rfl
  have hempty : UInt32.ofNat r.cborData.length = 0 ↔ r.cborData = [] := by
    rw [← UInt32.toNat_inj, UInt32.toNat_ofNat', ← List.length_eq_zero_iff]
    change r.cborData.length % 2 ^ 32 = 0 ↔ _
    omega
  have hfields : replyNumFields = r.pairs.length := hcount.symm
  by_cases hnone : r.success = false ∨ r.cborData = []
  · refine ⟨none, ?_, by rw [Carries, if_pos hnone]⟩
    have hskip : UInt32.ofNat r.cborData.length = 0 ∨ r.success = false := hnone.symm.imp_left hempty.mpr
    rw [DecodedConfigMapReply.decodeInto, hfields]
    simp only [into_modify_bind, hmap, reading_ok_bind, hgo1, hgo2, hgo3, hgo4, hgo5, into_get_bind,
      UInt32.toUInt32_toUInt64, hsuccess, if_pos hskip]
    rfl
  · have hgo : ¬ (UInt32.ofNat r.cborData.length = 0 ∨ r.success = false) := by
      rintro (hzero | hfalse)
      · exact hnone (.inr (hempty.mp hzero))
      · exact hnone (.inl hfalse)
    have hbytes : v5.isByteString = true := (h5.bytes_iff hh (by decide)).mpr rfl
    have hsame : (UInt32.ofNat r.cborData.length).toNat = r.cborData.length := by
      rw [UInt32.toNat_ofNat']
      exact Nat.mod_eq_of_lt (by omega)
    have hcopy := h5.copyOf (u := u) (.inl rfl) hh r.cborData.length
    obtain ⟨hstring, heq⟩ := h5.stringOf (u := u) (.inl rfl) hh
    obtain ⟨v6, hgo6, h6⟩ := advance_ok (u := u) h5
    have hleave := leaveMap_ok (u := u) rfl (by omega) hmapahead h6
    refine ⟨some ⟨v5, r.cborData.length⟩, ?_, ?_⟩
    · rw [DecodedConfigMapReply.decodeInto, hfields]
      simp only [into_modify_bind, hmap, reading_ok_bind, hgo1, hgo2, hgo3, hgo4, hgo5, into_get_bind,
        UInt32.toUInt32_toUInt64, hsuccess, if_neg hgo, hbytes, Bool.not_true, Bool.false_eq_true, if_false, hcopy,
        hsame, Nat.le_refl, decide_true, ne_eq, not_true_eq_false, hstring, hgo6, hleave]
      rfl
    · rw [Carries, if_neg hnone]
      exact ⟨_, rfl, rfl, heq⟩

end Bristlemouth.Service.ConfigMap
