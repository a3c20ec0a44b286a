import Bristlemouth.Wire.Le

/-!
# Publications

`encode` and `decode` of `pubsub.rs`: a header of five bytes, the topic, and the data to the end.
-/

set_option autoImplicit false

namespace Bristlemouth.Pubsub

open Bytes

def headerLen : Nat := 5

def topicMaxLen : Nat := 255

structure Publication where
  headerType : UInt8
  flags : UInt8
  topic : Bytes
  kind : UInt8
  version : UInt8
  data : Bytes
deriving DecidableEq, Repr

/-- The buffer after the call, and the bytes written to its start. -/
def encode (buf topic : Bytes) (kind version : UInt8) (data : Bytes) : Except BmWireError (Bytes × Nat) :=
  if topic = [] ∨ topicMaxLen ≤ topic.length then .error .invalid
  else
    let len := headerLen + topic.length + data.length
    if buf.length < len then .error .truncated
    else
      let header : Bytes := [0, 0, UInt8.ofNat topic.length, kind, version]
      .ok (((buf.copyAt 0 header).copyAt headerLen topic).copyAt (headerLen + topic.length) data, len)

def decode (payload : Bytes) : Except BmWireError Publication :=
  match payload with
  | headerType :: flags :: topicLen :: kind :: version :: rest =>
    if rest.length < topicLen.toNat then .error .truncated
    else .ok ⟨headerType, flags, rest.take topicLen.toNat, kind, version, rest.drop topicLen.toNat⟩
  | _ => .error .truncated

theorem encode_eq {buf topic data buf' : Bytes} {kind version : UInt8} {n : Nat}
    (h : encode buf topic kind version data = .ok (buf', n)) :
    topic.length < topicMaxLen ∧
      buf'.take n = [0, 0, UInt8.ofNat topic.length, kind, version] ++ (topic ++ data) := by
  unfold encode at h
  by_cases hbad : topic = [] ∨ topicMaxLen ≤ topic.length
  · rw [if_pos hbad] at h
    cases h
  · rw [if_neg hbad] at h
    by_cases hshort : buf.length < headerLen + topic.length + data.length
    · dsimp only at h
      rw [if_pos hshort] at h
      cases h
    · dsimp only at h
      rw [if_neg hshort] at h
      cases h
      refine ⟨by omega, ?_⟩
      rw [headerLen] at hshort ⊢
      have hheader : (buf.copyAt 0 [0, 0, UInt8.ofNat topic.length, kind, version]).length = buf.length := by
        apply length_copyAt
        change 0 + 5 ≤ buf.length
        omega
      have htopic : ((buf.copyAt 0 [0, 0, UInt8.ofNat topic.length, kind, version]).copyAt 5 topic).length =
          buf.length := by
        rw [length_copyAt _ _ _ (by omega), hheader]
      rw [take_copyAt data (by omega), take_copyAt topic (by omega), List.append_assoc]
      have hfirst := @take_copyAt buf 0 [0, 0, UInt8.ofNat topic.length, kind, version]
        (Nat.zero_le _)
      exact congrArg (· ++ (topic ++ data)) hfirst

theorem length_encode {buf topic data buf' : Bytes} {kind version : UInt8} {n : Nat}
    (h : encode buf topic kind version data = .ok (buf', n)) : buf'.length = buf.length := by
  unfold encode at h
  split_ifs at h with hbad
  dsimp only at h
  split_ifs at h with hshort
  cases h
  rw [headerLen] at hshort ⊢
  have hheader : (buf.copyAt 0 [0, 0, UInt8.ofNat topic.length, kind, version]).length = buf.length := by
    apply length_copyAt
    change 0 + 5 ≤ buf.length
    omega
  have htopic : ((buf.copyAt 0 [0, 0, UInt8.ofNat topic.length, kind, version]).copyAt 5 topic).length =
      buf.length := by
    rw [length_copyAt _ _ _ (by omega), hheader]
  rw [length_copyAt _ _ _ (by omega), htopic]

/-- What is encoded is decoded. -/
theorem decode_encode {buf topic data buf' : Bytes} {kind version : UInt8} {n : Nat}
    (h : encode buf topic kind version data = .ok (buf', n)) :
    decode (buf'.take n) = .ok ⟨0, 0, topic, kind, version, data⟩ := by
  obtain ⟨hlen, hbytes⟩ := encode_eq h
  have hnat : (UInt8.ofNat topic.length).toNat = topic.length := by
    rw [UInt8.toNat_ofNat']
    exact Nat.mod_eq_of_lt (Nat.lt_succ_of_lt hlen)
  rw [hbytes]
  simp only [List.cons_append, List.nil_append, decode, hnat]
  rw [if_neg (by rw [List.length_append]; omega), List.take_left, List.drop_left]

end Bristlemouth.Pubsub
