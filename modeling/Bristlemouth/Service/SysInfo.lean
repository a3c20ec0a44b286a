import Bristlemouth.Service.MapWriter

/-!
# The bodies of sys_info and power_info

`service/sys_info.rs`, `service/power_info.rs`: maps of fixed keys. The decoders go by the order of the
fields and never compare a key; power_info's checks the type of a value, sys_info's takes any argument.
-/

set_option autoImplicit false

namespace Bristlemouth.Service

open Bytes Config Bristlemouth.Parser

/-- An unsigned item of the shortest form. -/
def uintItem (n : UInt64) : Bytes := (Cbor.Scalar.unsigned n.toNat).encode

theorem fine_uintItem (d : Nat) (n : UInt64) : Fine d (uintItem n) := fine_unsigned d n.toNat_lt

theorem length_uintItem_le (n : UInt64) : (uintItem n).length ≤ 9 := Cbor.length_preferredHead_le 0 n.toNat

namespace SysInfo

def numFields : Nat := 5

/-- `node_id` -/
def nodeIdKey : Bytes := [0x6e, 0x6f, 0x64, 0x65, 0x5f, 0x69, 0x64]

/-- `git_sha` -/
def gitShaKey : Bytes := [0x67, 0x69, 0x74, 0x5f, 0x73, 0x68, 0x61]

/-- `sys_config_crc` -/
def sysConfigCrcKey : Bytes :=
  [0x73, 0x79, 0x73, 0x5f, 0x63, 0x6f, 0x6e, 0x66, 0x69, 0x67, 0x5f, 0x63, 0x72, 0x63]

/-- `app_name_strlen` -/
def appNameStrlenKey : Bytes :=
  [0x61, 0x70, 0x70, 0x5f, 0x6e, 0x61, 0x6d, 0x65, 0x5f, 0x73, 0x74, 0x72, 0x6c, 0x65, 0x6e]

/-- `app_name` -/
def appNameKey : Bytes := [0x61, 0x70, 0x70, 0x5f, 0x6e, 0x61, 0x6d, 0x65]

structure SysInfoReply where
  nodeId : UInt64
  gitSha : UInt32
  sysConfigCrc : UInt32
  appNameStrlen : UInt32
  appName : Bytes
deriving DecidableEq

def SysInfoReply.new (nodeId : UInt64) (gitSha sysConfigCrc : UInt32) (appName : Bytes) : SysInfoReply :=
  ⟨nodeId, gitSha, sysConfigCrc, UInt32.ofNat appName.length, appName⟩

def SysInfoReply.encode [Cbor2] (r : SysInfoReply) (out : Bytes) : Bytes × Except CborError Nat :=
  encodeMap out numFields fun w =>
    ((((w.uint nodeIdKey r.nodeId).uint gitShaKey r.gitSha.toUInt64).uint sysConfigCrcKey
      r.sysConfigCrc.toUInt64).uint appNameStrlenKey r.appNameStrlen.toUInt64).text appNameKey
      |>.text r.appName

structure DecodedSysInfoReply where
  nodeId : UInt64
  gitSha : UInt32
  sysConfigCrc : UInt32
  appNameStrlen : UInt32
  appName : Option CborString
deriving DecidableEq

/-- A key that is stepped over, and the argument of the value behind it. -/
def argument (u : Usize) (value : Value) (set : UInt64 → DecodedSysInfoReply → DecodedSysInfoReply) :
    Into DecodedSysInfoReply Value := do
  let value ← reading (skipKey u value)
  let n ← reading (value.extract u)
  modify (set n)
  reading (value.advance u).get

def decodeInto (u : Usize) (buf : Bytes) : Into DecodedSysInfoReply Unit := do
  modify fun d => { d with appName := none }
  let (map, value) ← reading (enterMap u buf numFields)
  let value ← argument u value fun n d => { d with nodeId := n }
  let value ← argument u value fun n d => { d with gitSha := n.toUInt32 }
  let value ← argument u value fun n d => { d with sysConfigCrc := n.toUInt32 }
  let value ← argument u value fun n d => { d with appNameStrlen := n.toUInt32 }
  let value ← reading (skipKey u value)
  if !value.isTextString then reading (fail .illegalType)
  else
    let buflen := ((← get).appNameStrlen + 1).toNat
    let copied ← reading (value.copyString u buflen).2
    if !copied.all then reading (fail .outOfMemory)
    else
      let appName ← reading (value.string u)
      modify fun d => { d with appName := some appName }
      let value ← reading (value.advance u).get
      reading (leaveMap u map value)

/-- The entries of the reply's map. -/
def SysInfoReply.pairs (r : SysInfoReply) : List (Bytes × Bytes) :=
  [(nodeIdKey, uintItem r.nodeId), (gitShaKey, uintItem r.gitSha.toUInt64),
    (sysConfigCrcKey, uintItem r.sysConfigCrc.toUInt64), (appNameStrlenKey, uintItem r.appNameStrlen.toUInt64),
    (appNameKey, (Cbor.Scalar.text r.appName).encode)]

theorem encode_encodes [Cbor2] [Cbor2.Minimal] [Cbor2.Refusing] (r : SysInfoReply) :
    Encodes (bodyOf r.pairs) r.encode := by
  apply encodes_map
  intro w
  exact (Wrote.uint w nodeIdKey r.nodeId).cons <| (Wrote.uint _ gitShaKey r.gitSha.toUInt64).cons <|
    (Wrote.uint _ sysConfigCrcKey r.sysConfigCrc.toUInt64).cons <|
    (Wrote.uint _ appNameStrlenKey r.appNameStrlen.toUInt64).cons <|
    ((Wrote.text _ appNameKey).trans (Wrote.text _ r.appName)).cons (.nil _)

theorem argument_ok {u : Usize} {buf key rest : Bytes} {n : UInt64} {items : List Bytes} {v : Value}
    (set : UInt64 → DecodedSysInfoReply → DecodedSysInfoReply)
    (h : Ahead buf ((Cbor.Scalar.text key).encode :: uintItem n :: items) rest v) :
    ∃ w, Ahead buf items rest w ∧ ∀ (f : Value → Into DecodedSysInfoReply Unit) (d : DecodedSysInfoReply),
      (argument u v set >>= f).into d = (f w).into (set n d) := by
  obtain ⟨x, hx, hxahead⟩ := skipKey_ok (u := u) h
  obtain ⟨-, hextract⟩ := unsigned_ok (u := u) hxahead
  obtain ⟨w, hw, hahead⟩ := advance_ok (u := u) hxahead
  refine ⟨w, hahead, fun f d => ?_⟩
  rw [argument]
  simp only [bind_assoc, hx, hextract, hw, reading_ok_bind, into_modify_bind]

theorem decode_ok {u : Usize} {r : SysInfoReply} (hshort : (bodyOf r.pairs).length < 2 ^ 31)
    (hname : r.appName.length ≤ (r.appNameStrlen + 1).toNat) (d : DecodedSysInfoReply) :
    ∃ name : CborString, (decodeInto u (bodyOf r.pairs)).into d =
        (⟨r.nodeId, r.gitSha, r.sysConfigCrc, r.appNameStrlen, some name⟩, .ok ()) ∧
      name.len = r.appName.length ∧ ∀ bytes, name.eqBytes u bytes = .ok (decide (bytes = r.appName)) := by
  have hnamelen : r.appName.length < 2 ^ 64 := by
    have hbound := (r.appNameStrlen + 1).toNat_lt
    omega
  have hfine : ∀ pair ∈ r.pairs, pair.1.length < 2 ^ 64 ∧ Fine 9 pair.2 := by
    intro pair hpair
    simp only [SysInfoReply.pairs, List.mem_cons, List.not_mem_nil, or_false] at hpair
    rcases hpair with rfl | rfl | rfl | rfl | rfl
    · exact ⟨(by decide : nodeIdKey.length < 2 ^ 64), fine_uintItem 9 _⟩
    · exact ⟨(by decide : gitShaKey.length < 2 ^ 64), fine_uintItem 9 _⟩
    · exact ⟨(by decide : sysConfigCrcKey.length < 2 ^ 64), fine_uintItem 9 _⟩
    · exact ⟨(by decide : appNameStrlenKey.length < 2 ^ 64), fine_uintItem 9 _⟩
    · exact ⟨(by decide : appNameKey.length < 2 ^ 64), fine_text 9 hnamelen⟩
  have hcount : r.pairs.length = 5 := rfl
  obtain ⟨map, v, hmap, hmapahead, h⟩ := enterMap_ok (u := u) rfl hshort (by omega) hfine
  obtain ⟨v1, h1, hgo1⟩ := argument_ok (u := u) (fun n d => { d with nodeId := n }) h
  obtain ⟨v2, h2, hgo2⟩ := argument_ok (u := u) (fun n d => { d with gitSha := n.toUInt32 }) h1
  obtain ⟨v3, h3, hgo3⟩ := argument_ok (u := u) (fun n d => { d with sysConfigCrc := n.toUInt32 }) h2
  obtain ⟨v4, h4, hgo4⟩ := argument_ok (u := u) (fun n d => { d with appNameStrlen := n.toUInt32 }) h3
  obtain ⟨v5, hgo5, h5⟩ := skipKey_ok (u := u) h4
  have hh := h5.text_isHead
  have htext : v5.isTextString = true := (h5.text_iff hh (by decide)).mpr rfl
  have hcopy := h5.copyString (u := u) hh (r.appNameStrlen + 1).toNat
  obtain ⟨hstring, heq⟩ := h5.string (u := u) hh
  obtain ⟨v6, hgo6, h6⟩ := advance_ok (u := u) h5
  have hleave := leaveMap_ok (u := u) rfl (by omega) hmapahead h6
  refine ⟨⟨v5, r.appName.length⟩, ?_, rfl, heq⟩
  have hfields : numFields = r.pairs.length := hcount.symm
  rw [decodeInto, hfields]
  simp only [into_modify_bind, hmap, reading_ok_bind, hgo1, hgo2, hgo3, hgo4, hgo5, htext, Bool.not_true,
    Bool.false_eq_true, if_false, into_get_bind, UInt32.toUInt32_toUInt64, hcopy, decide_eq_true hname, hstring,
    hgo6, hleave, into_reading]

end SysInfo

namespace PowerInfo

def numFields : Nat := 3

/-- `total_on_s` -/
def totalOnKey : Bytes := [0x74, 0x6f, 0x74, 0x61, 0x6c, 0x5f, 0x6f, 0x6e, 0x5f, 0x73]

/-- `remaining_on_s` -/
def remainingOnKey : Bytes :=
  [0x72, 0x65, 0x6d, 0x61, 0x69, 0x6e, 0x69, 0x6e, 0x67, 0x5f, 0x6f, 0x6e, 0x5f, 0x73]

/-- `upcoming_off_s` -/
def upcomingOffKey : Bytes :=
  [0x75, 0x70, 0x63, 0x6f, 0x6d, 0x69, 0x6e, 0x67, 0x5f, 0x6f, 0x66, 0x66, 0x5f, 0x73]

structure PowerInfoReply where
  totalOnS : UInt32
  remainingOnS : UInt32
  upcomingOffS : UInt32
deriving DecidableEq

def PowerInfoReply.encode [Cbor2] (r : PowerInfoReply) (out : Bytes) : Bytes × Except CborError Nat :=
  encodeMap out numFields fun w =>
    ((w.uint totalOnKey r.totalOnS.toUInt64).uint remainingOnKey r.remainingOnS.toUInt64).uint
      upcomingOffKey r.upcomingOffS.toUInt64

/-- The field is written once the value is stepped over. -/
def uint32 (u : Usize) (value : Value) (set : UInt32 → PowerInfoReply → PowerInfoReply) :
    Into PowerInfoReply Value := do
  let value ← reading (skipKey u value)
  if !value.isUnsignedInteger then reading (fail .illegalType)
  else
    let v ← reading (value.extract u)
    let value ← reading (value.advance u).get
    modify (set v.toUInt32)
    return value

def decodeInto (u : Usize) (buf : Bytes) : Into PowerInfoReply Unit := do
  let (map, value) ← reading (enterMap u buf numFields)
  let value ← uint32 u value fun n d => { d with totalOnS := n }
  let value ← uint32 u value fun n d => { d with remainingOnS := n }
  let value ← uint32 u value fun n d => { d with upcomingOffS := n }
  reading (leaveMap u map value)

/-- The entries of the reply's map. -/
def PowerInfoReply.pairs (r : PowerInfoReply) : List (Bytes × Bytes) :=
  [(totalOnKey, uintItem r.totalOnS.toUInt64), (remainingOnKey, uintItem r.remainingOnS.toUInt64),
    (upcomingOffKey, uintItem r.upcomingOffS.toUInt64)]

theorem encode_encodes [Cbor2] [Cbor2.Minimal] [Cbor2.Refusing] (r : PowerInfoReply) :
    Encodes (bodyOf r.pairs) r.encode := by
  apply encodes_map
  intro w
  exact (Wrote.uint w totalOnKey r.totalOnS.toUInt64).cons <|
    (Wrote.uint _ remainingOnKey r.remainingOnS.toUInt64).cons <|
    (Wrote.uint _ upcomingOffKey r.upcomingOffS.toUInt64).cons (.nil _)

theorem uint32_ok {u : Usize} {buf key rest : Bytes} {n : UInt32} {items : List Bytes} {v : Value}
    (set : UInt32 → PowerInfoReply → PowerInfoReply)
    (h : Ahead buf ((Cbor.Scalar.text key).encode :: uintItem n.toUInt64 :: items) rest v) :
    ∃ w, Ahead buf items rest w ∧ ∀ (f : Value → Into PowerInfoReply Unit) (d : PowerInfoReply),
      (uint32 u v set >>= f).into d = (f w).into (set n d) := by
  obtain ⟨x, hx, hxahead⟩ := skipKey_ok (u := u) h
  obtain ⟨hunsigned, hextract⟩ := unsigned_ok (u := u) hxahead
  obtain ⟨w, hw, hahead⟩ := advance_ok (u := u) hxahead
  refine ⟨w, hahead, fun f d => ?_⟩
  rw [uint32]
  simp only [bind_assoc, hx, hunsigned, Bool.not_true, Bool.false_eq_true, if_false, hextract, hw,
    reading_ok_bind, pure_bind, into_modify_bind, UInt32.toUInt32_toUInt64]

theorem length_pairs_lt (r : PowerInfoReply) : (bodyOf r.pairs).length < 2 ^ 31 := by
  have htotal := length_uintItem_le r.totalOnS.toUInt64
  have hremaining := length_uintItem_le r.remainingOnS.toUInt64
  have hupcoming := length_uintItem_le r.upcomingOffS.toUInt64
  have hkeys : (Cbor.Scalar.text totalOnKey).encode.length = 11 ∧
      (Cbor.Scalar.text remainingOnKey).encode.length = 15 ∧
      (Cbor.Scalar.text upcomingOffKey).encode.length = 15 := by decide
  have hhead : (Cbor.preferredHead 5 r.pairs.length).length = 1 := rfl
  rw [bodyOf, List.length_append, hhead]
  simp only [PowerInfoReply.pairs, Ahead.pairItems_cons, List.flatten_cons, List.length_append, hkeys]
  simp only [Ahead.pairItems, List.flatMap_nil, List.flatten_nil, List.length_nil]
  omega

theorem decode_ok (u : Usize) (r d : PowerInfoReply) :
    (decodeInto u (bodyOf r.pairs)).into d = (r, .ok ()) := by
  have hfine : ∀ pair ∈ r.pairs, pair.1.length < 2 ^ 64 ∧ Fine 9 pair.2 := by
    intro pair hpair
    simp only [PowerInfoReply.pairs, List.mem_cons, List.not_mem_nil, or_false] at hpair
    rcases hpair with rfl | rfl | rfl
    · exact ⟨(by decide : totalOnKey.length < 2 ^ 64), fine_uintItem 9 _⟩
    · exact ⟨(by decide : remainingOnKey.length < 2 ^ 64), fine_uintItem 9 _⟩
    · exact ⟨(by decide : upcomingOffKey.length < 2 ^ 64), fine_uintItem 9 _⟩
  have hcount : r.pairs.length = 3 := rfl
  obtain ⟨map, v, hmap, hmapahead, h⟩ := enterMap_ok (u := u) rfl (length_pairs_lt r) (by omega) hfine
  obtain ⟨v1, h1, hgo1⟩ := uint32_ok (u := u) (fun n d => { d with totalOnS := n }) h
  obtain ⟨v2, h2, hgo2⟩ := uint32_ok (u := u) (fun n d => { d with remainingOnS := n }) h1
  obtain ⟨v3, h3, hgo3⟩ := uint32_ok (u := u) (fun n d => { d with upcomingOffS := n }) h2
  have hleave := leaveMap_ok (u := u) rfl (by omega) hmapahead h3
  have hfields : numFields = r.pairs.length := hcount.symm
  rw [decodeInto, hfields]
  simp only [hmap, reading_ok_bind, hgo1, hgo2, hgo3, hleave, into_reading]

end PowerInfo

end Bristlemouth.Service
