import Bristlemouth.Config.Runs
import Bristlemouth.Service.Untrusted

/-!
# The config_map service

The handler writes a reply in two passes over a partition's map, and without a buffer for it. What it writes
is the reply's own encoding, whatever the map is and however short the buffer.
-/

set_option autoImplicit false

namespace Bristlemouth.Service.ConfigMap

open Bytes Config Bristlemouth.Parser

section
variable [Cbor2]

/-- How a node asks its partitions for their maps. -/
def mapsOf (u : Usize) (store : Partition → ConfigPartition) : MapOf := fun p out => (store p).cborMap u out

/-- The reply to a request, from what the partitions' maps are. There is none where the C is undefined. -/
def replyTo (u : Usize) (store : Partition → ConfigPartition) (nodeId : UInt64) (req : ConfigMapRequest) :
    Option ConfigMapReply :=
  match partition req.partitionId with
  | none => some ⟨nodeId, req.partitionId, false, []⟩
  | some p =>
    match (store p).mapBytes u with
    | some (.ok map) => some ⟨nodeId, req.partitionId, true, map⟩
    | some (.error .noMap) => some ⟨nodeId, req.partitionId, false, []⟩
    | _ => none

/-- What sending the reply leaves in the buffer, and its length if it fits. -/
def sent (out : Bytes) : Option ConfigMapReply → Bytes × Option Nat
  | none => (out, none)
  | some reply => ((reply.encode out).1, (reply.encode out).2.toOption)

/-- A reply that is due carries the map of the partition asked for, or nothing. -/
theorem replyTo_cases {u : Usize} {store : Partition → ConfigPartition} {nodeId : UInt64}
    {req : ConfigMapRequest} {reply : ConfigMapReply} (hreply : replyTo u store nodeId req = some reply) :
    reply.success = false ∧ reply.cborData = [] ∨
      ∃ p, partition req.partitionId = some p ∧ (store p).mapBytes u = some (.ok reply.cborData) := by
  rw [replyTo] at hreply
  cases hp : partition req.partitionId with
  | none =>
    rw [hp] at hreply
    cases hreply
    exact .inl ⟨rfl, rfl⟩
  | some p =>
    rw [hp] at hreply
    dsimp only at hreply
    cases hmap : (store p).mapBytes u with
    | none =>
      rw [hmap] at hreply
      cases hreply
    | some found =>
      rw [hmap] at hreply
      cases found with
      | ok map =>
        cases hreply
        exact .inr ⟨p, rfl, hmap⟩
      | error e =>
        cases e with
        | noMap =>
          cases hreply
          exact .inl ⟨rfl, rfl⟩
        | unreachable => cases hreply
        | tooSmall n => cases hreply

theorem sent_eq {reply : ConfigMapReply} (h : Encodes (bodyOf reply.pairs) reply.encode) (out : Bytes) :
    (sent out (some reply)).2 = (if (bodyOf reply.pairs).length ≤ out.length then
        some (bodyOf reply.pairs).length else none) ∧
      ((bodyOf reply.pairs).length ≤ out.length →
        (sent out (some reply)).1.take (bodyOf reply.pairs).length = bodyOf reply.pairs) := by
  have hout := h out
  rw [sent]
  by_cases hfit : (bodyOf reply.pairs).length ≤ out.length
  · rw [if_pos hfit] at hout
    rw [if_pos hfit, hout]
    exact ⟨rfl, fun _ => by simp [copyAt]⟩
  · rw [if_neg hfit] at hout
    rw [if_neg hfit, hout]
    exact ⟨rfl, fun hle => absurd hle hfit⟩

/-- There is no reply exactly for a map that is not to be read. -/
theorem replyTo_eq_none {u : Usize} {store : Partition → ConfigPartition} {nodeId : UInt64}
    {req : ConfigMapRequest} (hn : ∀ p, (store p).numKeys ≤ maxNumKv) :
    replyTo u store nodeId req = none ↔
      ∃ p, partition req.partitionId = some p ∧ (store p).mapBytes u = some (.error .unreachable) := by
  rw [replyTo]
  cases hp : partition req.partitionId with
  | none =>
    refine ⟨fun h => (by cases h), ?_⟩
    rintro ⟨p, hsome, -⟩
    cases hsome
  | some p =>
    obtain ⟨found, hfound, herror, -⟩ := ConfigPartition.cborMap_copies (hn p) u
    dsimp only
    rw [hfound]
    have hsame : (∃ p', some p = some p' ∧ (store p').mapBytes u = some (.error .unreachable)) ↔
        found = .error .unreachable := by
      constructor
      · rintro ⟨p', hp', hmap⟩
        cases hp'
        exact Option.some_injective _ (hfound.symm.trans hmap)
      · rintro rfl
        exact ⟨p, rfl, hfound⟩
    rw [hsame]
    cases found with
    | ok map => exact ⟨fun h => (by cases h), fun h => (by cases h)⟩
    | error e =>
      cases e with
      | noMap => exact ⟨fun h => (by cases h), fun h => (by cases h)⟩
      | unreachable => exact ⟨fun _ => rfl, fun _ => rfl⟩
      | tooSmall n => exact (herror _ rfl).elim

variable [Cbor2.Minimal]

/-- A map has fifty pairs at most, so a reply is short. -/
theorem length_replyTo {u : Usize} {store : Partition → ConfigPartition} {nodeId : UInt64}
    {req : ConfigMapRequest} {reply : ConfigMapReply} (hn : ∀ p, (store p).numKeys ≤ maxNumKv)
    (hreply : replyTo u store nodeId req = some reply) : (bodyOf reply.pairs).length < 2 ^ 31 := by
  have hbody := length_bodyOf_pairs reply
  have hdata : reply.cborData.length ≤ 9 + maxNumKv * maxPairLen := by
    rcases replyTo_cases hreply with ⟨-, hnil⟩ | ⟨p, -, hmap⟩
    · rw [hnil]
      exact Nat.zero_le _
    · exact ConfigPartition.length_mapBytes (hn p) hmap
  have hmost : 9 + maxNumKv * maxPairLen + 200 < 2 ^ 31 := by decide
  omega

variable [Cbor2.Refusing]

theorem length_encodeHead (nodeId : UInt64) (partitionId : UInt32) (success : Bool) (len : Nat) {out out' : Bytes}
    {head : Nat} (h : encodeHead nodeId partitionId success len out = (out', .ok head)) :
    len < 2 ^ 32 ∧ out'.length = out.length ∧ head ≤ out.length := by
  by_cases hlen : 2 ^ 32 ≤ len
  · rw [encodeHead, if_pos hlen] at h
    cases congrArg Prod.snd h
  · have hhead := encodeHead_encodes nodeId partitionId success (Nat.not_le.mp hlen) out
    generalize bodyOf (headPairs nodeId partitionId success len) = bytes at hhead
    by_cases hfit : bytes.length ≤ out.length
    · rw [if_pos hfit, h] at hhead
      cases hhead
      exact ⟨Nat.not_le.mp hlen, length_copyAt out 0 bytes (by omega), hfit⟩
    · rw [if_neg hfit, h] at hhead
      cases hhead

/-- A failure, or a map that is there, is written as its reply. -/
theorem writeReply_eq {u : Usize} {nodeId : UInt64} {partitionId : UInt32} {map : MapOf}
    {found : Option (Partition × Nat)} {data out : Bytes} (hout : out.length ≤ u.max)
    (hlen : (found.map Prod.snd).getD 0 = data.length)
    (hmap : ∀ p len, found = some (p, len) → ∀ tail : Bytes, tail.length = data.length →
      map p tail = some (data, .ok data.length))
    (hnone : found = none → data = []) :
    writeReply u nodeId partitionId map found out =
      some (sent out (some ⟨nodeId, partitionId, found.isSome, data⟩)) := by
  rw [writeReply, sent, ConfigMapReply.encode]
  dsimp only
  rw [hlen]
  cases hhead : encodeHead nodeId partitionId found.isSome data.length out with
  | mk out' result =>
    cases result with
    | error e => rfl
    | ok head =>
      obtain ⟨-, hlength, hle⟩ := length_encodeHead _ _ _ _ hhead
      dsimp only
      by_cases hfit : head + data.length ≤ out'.length
      · rw [if_pos ⟨by omega, hfit⟩, if_pos hfit]
        cases found with
        | none =>
          obtain rfl := hnone rfl
          have hsame : out'.copyAt head [] = out' := by simp [copyAt]
          rw [hsame]
          rfl
        | some found =>
          obtain ⟨p, len⟩ := found
          have htail : (out'.slice head data.length).length = data.length := length_slice hfit
          simp only [hmap p len rfl _ htail, Option.bind_eq_bind, Option.bind_some]
          rfl
      · rw [if_neg (fun h => hfit h.2), if_neg hfit]
        rfl

section
variable {u : Usize} {store : Partition → ConfigPartition} {request out : Bytes} {req : ConfigMapRequest}
  {nodeId : UInt64} {reply : ConfigMapReply}

/-- A request that decodes is answered with its reply, if there is one and it fits. -/
theorem handle_eq (hn : ∀ p, (store p).numKeys ≤ maxNumKv)
    (hreq : (ConfigMapRequest.decodeInto u request).into ⟨0⟩ = (req, .ok ())) (hout : out.length ≤ u.max) :
    handle u request nodeId (mapsOf u store) out = some (sent out (replyTo u store nodeId req)) := by
  rw [handle, hreq, replyTo]
  dsimp only
  cases hp : partition req.partitionId with
  | none => exact writeReply_eq hout rfl (fun _ _ h => by cases h) (fun _ => rfl)
  | some p =>
    obtain ⟨found, hfound, herror, hcalls, -⟩ := ConfigPartition.cborMap_copies (hn p) u
    obtain ⟨⟨empty, first⟩, hempty, hcopies⟩ := hcalls []
    have hresult := hcopies.result
    dsimp only
    rw [hfound]
    cases found with
    | ok map =>
      have hmeasure : measure (mapsOf u store) p = some (.ok (some (p, map.length))) := by
        simp only [measure, mapsOf, hempty, Option.bind_eq_bind, Option.bind_some]
        dsimp only at hresult
        rw [hresult]
        by_cases hzero : map.length = 0
        · simp [Except.bind, hzero]
        · simp [Except.bind, Nat.pos_of_ne_zero hzero]
      simp only [hmeasure, Option.bind_eq_bind, Option.bind_some]
      refine writeReply_eq hout (rfl : _ = map.length) ?_ ?_
      · intro p' len hsame tail htail
        cases hsame
        obtain ⟨⟨written, second⟩, hcall, hcopied⟩ := hcalls tail
        have hwritten := hcopied.written map rfl (Nat.le_of_eq htail.symm)
        have hsecond := hcopied.result
        dsimp only at hwritten hsecond
        rw [copyAt_zero_of_length htail.symm] at hwritten
        have hlong : ¬ tail.length < map.length := by omega
        rw [mapsOf, hcall, hwritten, hsecond]
        simp [Except.bind, hlong]
      · intro hnone
        cases hnone
    | error e =>
      cases e with
      | noMap =>
        have hmeasure : measure (mapsOf u store) p = some (.ok none) := by
          simp only [measure, mapsOf, hempty, Option.bind_eq_bind, Option.bind_some]
          dsimp only at hresult
          rw [hresult]
          rfl
        simp only [hmeasure, Option.bind_eq_bind, Option.bind_some]
        exact writeReply_eq hout rfl (fun _ _ h => by cases h) (fun _ => rfl)
      | unreachable =>
        have hmeasure : measure (mapsOf u store) p = some (.error .unreachable) := by
          simp only [measure, mapsOf, hempty, Option.bind_eq_bind, Option.bind_some]
          dsimp only at hresult
          rw [hresult]
          rfl
        simp only [hmeasure, Option.bind_eq_bind, Option.bind_some]
        rfl
      | tooSmall n => exact (herror _ rfl).elim

theorem replyTo_encodes (hn : ∀ p, (store p).numKeys ≤ maxNumKv)
    (hreply : replyTo u store nodeId req = some reply) : Encodes (bodyOf reply.pairs) reply.encode := by
  have hshort := length_replyTo hn hreply
  have hle := congrArg List.length (bodyOf_pairs reply)
  rw [List.length_append] at hle
  exact reply_encodes reply (by omega)

/-- Why a request gets no answer. -/
def Unanswered (u : Usize) (store : Partition → ConfigPartition) (nodeId : UInt64) (request out : Bytes) : Prop :=
  (∃ req e, (ConfigMapRequest.decodeInto u request).into ⟨0⟩ = (req, .error e)) ∨
  ∃ req, (ConfigMapRequest.decodeInto u request).into ⟨0⟩ = (req, .ok ()) ∧
    ((∃ p, partition req.partitionId = some p ∧ (store p).mapBytes u = some (.error .unreachable)) ∨
      ∃ reply, replyTo u store nodeId req = some reply ∧ out.length < (bodyOf reply.pairs).length)

theorem handle_unanswered (hn : ∀ p, (store p).numKeys ≤ maxNumKv) (hout : out.length ≤ u.max)
    {called : Bytes × Option Nat} (hcalled : handle u request nodeId (mapsOf u store) out = some called) :
    called.2 = none ↔ Unanswered u store nodeId request out := by
  have heq := @handle_eq _ _ _ u store request out
  rw [Unanswered]
  cases hdecoded : (ConfigMapRequest.decodeInto u request).into ⟨0⟩ with
  | mk req result =>
    cases result with
    | error halt =>
      rw [handle, hdecoded] at hcalled
      cases halt with
      | error e =>
        cases hcalled
        exact ⟨fun _ => .inl ⟨req, .error e, rfl⟩, fun _ => rfl⟩
      | panic => cases hcalled
      | diverge => cases hcalled
    | ok _ =>
      have hsame : ∀ {req' : ConfigMapRequest}, (req, Except.ok ()) = (req', (.ok () : Run Unit)) → req' = req :=
        fun h => (Prod.mk.inj h).1.symm
      rw [heq hn hdecoded hout, Option.some_inj] at hcalled
      rw [← hcalled]
      cases hreply : replyTo u store nodeId req with
      | none =>
        exact ⟨fun _ => .inr ⟨req, rfl, .inl ((replyTo_eq_none hn).mp hreply)⟩, fun _ => rfl⟩
      | some reply =>
        rw [(sent_eq (replyTo_encodes hn hreply) out).1]
        constructor
        · intro hnone
          split_ifs at hnone with hfit
          exact .inr ⟨req, rfl, .inr ⟨reply, hreply, Nat.not_le.mp hfit⟩⟩
        · rintro (⟨req', e, herror⟩ | ⟨req', hreq, hmap | ⟨reply', hreply', hlong⟩⟩)
          · cases herror
          · rw [hsame hreq] at hmap
            rw [(replyTo_eq_none hn).mpr hmap] at hreply
            cases hreply
          · rw [hsame hreq, hreply] at hreply'
            cases hreply'
            rw [if_neg (Nat.not_le.mpr hlong)]

theorem handle_returns (hn : ∀ p, (store p).numKeys ≤ maxNumKv) (hrequest : request.length < 2 ^ 31)
    (hout : out.length ≤ u.max) : handle u request nodeId (mapsOf u store) out ≠ none := by
  have hreturns := configMapRequest_settles u hrequest ⟨0⟩
  have heq := @handle_eq _ _ _ u store request out
  cases hdecoded : (ConfigMapRequest.decodeInto u request).into ⟨0⟩ with
  | mk req result =>
    rw [hdecoded] at hreturns
    cases result with
    | error halt =>
      rw [handle, hdecoded]
      cases halt with
      | error e => exact Option.some_ne_none _
      | panic => exact hreturns.elim
      | diverge => exact hreturns.elim
    | ok _ =>
      rw [heq hn hdecoded hout]
      exact Option.some_ne_none _

end

/-- Whatever the partitions hold, the passes over a map agree: what a buffer gets is what was measured, and
what the checksum is of. So a request that decodes is answered with the encoding of the reply that carries the
map, or of the failure; the answer decodes to that reply; and there is none exactly where the request does not
decode, the reply does not fit, or the map is not to be read. -/
theorem config_map_exchange {store : Partition → ConfigPartition}
    (hstore : ∀ p, ∃ l, Reached (fun _ _ => True) l (store p)) (u : Usize) (nodeId : UInt64) :
    (∀ p, ∃ found, (store p).mapBytes u = some found ∧
      (∀ out, ∃ called, (store p).cborMap u out = some called ∧ ConfigPartition.Copies found out called) ∧
      ∀ map, found = .ok map → (store p).cborMapCrc32 u = some (crc32Ieee map)) ∧
    (∀ request req out, (ConfigMapRequest.decodeInto u request).into ⟨0⟩ = (req, .ok ()) → out.length ≤ u.max →
      handle u request nodeId (mapsOf u store) out = some (sent out (replyTo u store nodeId req)) ∧
      ∀ reply, replyTo u store nodeId req = some reply → Encodes (bodyOf reply.pairs) reply.encode ∧
        ∀ out' n, handle u request nodeId (mapsOf u store) out = some (out', some n) → ∀ d, ∃ data,
          (DecodedConfigMapReply.decodeInto u (out'.take n)).into d =
            (⟨reply.nodeId, reply.partitionId, reply.success, UInt32.ofNat reply.cborData.length, data⟩, .ok ()) ∧
          Carries u reply data) ∧
    (∀ request out called, out.length ≤ u.max → handle u request nodeId (mapsOf u store) out = some called →
      (called.2 = none ↔ Unanswered u store nodeId request out)) ∧
    ∀ request out, request.length < 2 ^ 31 → out.length ≤ u.max →
      handle u request nodeId (mapsOf u store) out ≠ none := by
  have hn : ∀ p, (store p).numKeys ≤ maxNumKv := by
    intro p
    obtain ⟨l, hreached⟩ := hstore p
    exact hreached.bounded.1
  refine ⟨fun p => ?_, fun request req out hreq hout => ?_, fun request out called hout hcalled =>
    handle_unanswered hn hout hcalled, fun request out hrequest hout => handle_returns hn hrequest hout⟩
  · obtain ⟨found, hfound, -, hcalls, hcrc⟩ := ConfigPartition.cborMap_copies (hn p) u
    refine ⟨found, hfound, hcalls, fun map hmap => ?_⟩
    rw [hcrc, hmap]
  · have hhandle := @handle_eq _ _ _ u store request out req nodeId hn hreq hout
    refine ⟨hhandle, fun reply hreply => ?_⟩
    have hencodes := replyTo_encodes hn hreply
    refine ⟨hencodes, fun out' n hanswer d => ?_⟩
    obtain ⟨hlength, htake⟩ := sent_eq hencodes out
    rw [hhandle, hreply, Option.some_inj] at hanswer
    rw [hanswer] at hlength htake
    dsimp only at hlength htake
    split_ifs at hlength with hfit
    cases hlength
    rw [htake hfit]
    exact decode_ok (length_replyTo hn hreply) d

end

/-- A request for the map of the system partition. -/
def systemRequest : Bytes :=
  [0xa1, 0x6c, 0x70, 0x61, 0x72, 0x74, 0x69, 0x74, 0x69, 0x6f, 0x6e, 0x5f, 0x69, 0x64, 0x01]

/-- A client's request for the map of two keys is answered in a buffer of a hundred bytes, and the map read back
from it. -/
theorem config_map_exchange_twoKeys : Encodes systemRequest (@ConfigMapRequest.encode Cbor2.shortest ⟨1⟩) ∧
    ∃ out n data, @handle Cbor2.shortest .bits64 systemRequest 7 (@mapsOf Cbor2.shortest .bits64 fun _ => twoKeys)
          (List.replicate 100 0) = some (out, some n) ∧
      (DecodedConfigMapReply.decodeInto .bits64 (out.take n)).into ⟨0, 0, false, 0, none⟩ =
        (⟨7, 1, true, 8, data⟩, .ok ()) ∧
      Carries .bits64 ⟨7, 1, true, [0xa2, 0x61, 0x61, 0x07, 0x61, 0x62, 0x61, 0x78]⟩ data := by
  obtain ⟨-, hrequests, -⟩ := @config_map_exchange Cbor2.shortest Cbor2.shortest_minimal shortest_refusing
    (fun _ => twoKeys) (fun _ => ⟨.lp64, reached_twoKeys fun _ => ⟨trivial, trivial⟩⟩) .bits64 7
  have hreply : @replyTo Cbor2.shortest .bits64 (fun _ => twoKeys) 7 ⟨1⟩ =
      some ⟨7, 1, true, [0xa2, 0x61, 0x61, 0x07, 0x61, 0x62, 0x61, 0x78]⟩ := by
    decide +kernel
  have hrequest : bodyOf [(partitionIdKey, uintItem (1 : UInt32).toUInt64)] = systemRequest := by decide
  have hencoded := @request_encodes Cbor2.shortest Cbor2.shortest_minimal shortest_refusing ⟨1⟩
  have hdecoded := request_decodes .bits64 ⟨1⟩ ⟨0⟩
  rw [hrequest] at hencoded hdecoded
  obtain ⟨hhandle, hreplies⟩ := hrequests systemRequest ⟨1⟩ (List.replicate 100 0) hdecoded (by decide)
  obtain ⟨hencodes, hdecodes⟩ := hreplies _ hreply
  obtain ⟨hlength, -⟩ := @sent_eq Cbor2.shortest _ hencodes (List.replicate 100 0)
  rw [hreply] at hhandle
  generalize @sent Cbor2.shortest (List.replicate 100 0) _ = answer at hhandle hlength
  obtain ⟨out, n⟩ := answer
  have hn : n = some 74 := hlength
  rw [hn] at hhandle
  obtain ⟨data, hread, hcarries⟩ := hdecodes out 74 hhandle ⟨0, 0, false, 0, none⟩
  exact ⟨hencoded, out, 74, data, hhandle, hread, hcarries⟩

end Bristlemouth.Service.ConfigMap
