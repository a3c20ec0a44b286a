import Bristlemouth.Config.Confined
import Bristlemouth.Config.SaveLoad

/-!
# Runs of all calls

A `Call` is any call on a partition, the changes and the readings, with whatever it is given. A run of calls is
one of its changes, so it always returns, and what is reached is a partition of `Reached`.
-/

set_option autoImplicit false

namespace Bristlemouth.Config

open ConfigPartition

inductive Call where
  | change (op : Op)
  | storedKeys
  | getUint (key : Key)
  | getInt (key : Key)
  | getFloat (key : Key)
  | getString (u : Usize) (key : Key) (out : Bytes)
  | getBuffer (u : Usize) (key : Key) (out : Bytes)
  | getCbor (key : Key) (out : Bytes)
  | valueSize (u : Usize) (key : Key)
  | cborMap (u : Usize) (out : Bytes)
  | cborMapCrc32 (u : Usize)

section

variable [Cbor2]

/-- The partition after a call. A reading leaves it as it was. -/
def Call.run (p : ConfigPartition) : Call → Option ConfigPartition
  | change op => (op.run p).map Prod.snd
  | storedKeys => p.storedKeys.map fun _ => p
  | getUint key => (p.getUint key).map fun _ => p
  | getInt key => (p.getInt key).map fun _ => p
  | getFloat key => (p.getFloat key).map fun _ => p
  | getString u key out => (p.getString u key out).map fun _ => p
  | getBuffer u key out => (p.getBuffer u key out).map fun _ => p
  | getCbor key out => (p.getCbor key out).map fun _ => p
  | valueSize u key => (p.valueSize u key).map fun _ => p
  | cborMap u out => (p.cborMap u out).map fun _ => p
  | cborMapCrc32 u => (p.cborMapCrc32 u).map fun _ => p

/-- The calls one after the other. -/
def runCalls (p : ConfigPartition) (calls : List Call) : Option ConfigPartition := calls.foldlM Call.run p

/-- A call that changes nothing, or makes an allowed change. -/
def Call.Allowed (allowed : ConfigPartition → Op → Prop) (p : ConfigPartition) : Call → Prop
  | change op => allowed p op
  | _ => True

variable [Cbor2.Minimal] {allowed : ConfigPartition → Op → Prop} {l : Layout} {p : ConfigPartition}

/-- A call returns, and leaves a partition of the same run of changes. -/
theorem Call.run_reached (hp : Reached allowed l p) {call : Call} (hallowed : call.Allowed allowed p) :
    ∃ q, call.run p = some q ∧ Reached allowed l q := by
  have hn := hp.bounded.1
  have hread : ∀ {α : Type} {answer : Option α}, answer ≠ none →
      ∃ q, (answer.map fun _ => p) = some q ∧ Reached allowed l q := by
    intro α answer hanswer
    obtain ⟨a, rfl⟩ := Option.ne_none_iff_exists'.mp hanswer
    exact ⟨p, rfl, hp⟩
  cases call with
  | change op =>
    obtain ⟨ok, q, hrun, -⟩ := run_cases hn op
    exact ⟨q, congrArg (Option.map Prod.snd) hrun, hp.step hallowed hrun⟩
  | storedKeys =>
    apply hread
    rw [storedKeys_eq hn]
    exact Option.some_ne_none _
  | getUint key => exact hread (lookups_return hn key).2.1
  | getInt key => exact hread (lookups_return hn key).2.2.1
  | getFloat key => exact hread (lookups_return hn key).2.2.2
  | getString u key out => exact hread (reads_return hn key u out).1
  | getBuffer u key out => exact hread (reads_return hn key u out).2.1
  | getCbor key out => exact hread (reads_return hn key .bits32 out).2.2.1
  | valueSize u key => exact hread (reads_return hn key u []).2.2.2.1
  | cborMap u out => exact hread (reads_return hn (.new []) u out).2.2.2.2.1
  | cborMapCrc32 u => exact hread (reads_return hn (.new []) u []).2.2.2.2.2

theorem runCalls_reached {calls : List Call} (hallowed : ∀ call ∈ calls, ∀ p, call.Allowed allowed p)
    (hp : Reached allowed l p) : ∃ q, runCalls p calls = some q ∧ Reached allowed l q := by
  induction calls generalizing p with
  | nil => exact ⟨p, rfl, hp⟩
  | cons call calls ih =>
    obtain ⟨q, hrun, hq⟩ := call.run_reached hp (hallowed call List.mem_cons_self p)
    obtain ⟨r, hrest, hr⟩ := ih (fun c hc => hallowed c (List.mem_cons_of_mem call hc)) hq
    refine ⟨r, ?_, hr⟩
    rw [runCalls, List.foldlM_cons, hrun]
    exact hrest

theorem runCalls_any (calls : List Call) :
    ∃ q, runCalls (.new l) calls = some q ∧ Reached (fun _ _ => True) l q := by
  refine runCalls_reached (fun call _ p => ?_) .new
  cases call with
  | change op => trivial
  | _ => trivial

/-- Every sequence of calls on a new partition returns: no call indexes outside the image, which keeps its length,
and at most fifty keys are counted. Without a load every listed key fits its buffer and is found by its own name,
and its slot starts with an item head. -/
theorem calls_keep_partition (l : Layout) (calls : List Call) :
    ∃ p, runCalls (.new l) calls = some p ∧ p.layout = l ∧ p.image.length = maxImageLen ∧ p.numKeys ≤ maxNumKv ∧
      ((∀ call ∈ calls, ∀ read, call ≠ .change (.load read)) →
        ∀ c ∈ p.listed, c.keyLen ≤ maxKeyLenBytes ∧ c.head ≠ none ∧ ∃ i, p.find (Key.new c.name) = some (some i)) := by
  obtain ⟨p, hrun, hp⟩ := runCalls_any (l := l) calls
  refine ⟨p, hrun, hp.bounded.2, p.length_image, hp.bounded.1, fun hloads c hc => ?_⟩
  have hfree : ∀ call ∈ calls, ∀ p, call.Allowed LoadFree p := by
    intro call hcall p
    cases call with
    | change op =>
      cases op with
      | load read => exact absurd rfl (hloads _ hcall read)
      | _ => trivial
    | _ => trivial
  obtain ⟨q, hrun', hq⟩ := runCalls_reached hfree (.new (l := l))
  cases hrun.symm.trans hrun'
  have hsound := reached_sound (fun _ _ h => h) hq
  exact ⟨(hsound c hc).keyLen, (hsound c hc).head, hsound.find_self hp.bounded.1 hc⟩

end

/-- Two sets, a map, and the removal of the first key. -/
theorem calls_keep_partition_removal : ∃ p,
    @runCalls Cbor2.shortest (.new .lp64) [.change (.set (Key.new [0x61]) (.uint 7)),
      .change (.set (Key.new [0x62]) (.str [0x78])), .cborMap .bits64 (List.replicate 8 0),
      .change (.removeKey (Key.new [0x61])), .getUint (Key.new [0x61])] = some p ∧
    p.image.length = maxImageLen ∧ p.numKeys = 1 ∧
      ∀ c ∈ p.listed, c.keyLen ≤ maxKeyLenBytes ∧ c.head ≠ none ∧ ∃ i, p.find (Key.new c.name) = some (some i) := by
  have hcount : (@runCalls Cbor2.shortest (.new .lp64) [.change (.set (Key.new [0x61]) (.uint 7)),
      .change (.set (Key.new [0x62]) (.str [0x78])), .cborMap .bits64 (List.replicate 8 0),
      .change (.removeKey (Key.new [0x61])), .getUint (Key.new [0x61])]).map ConfigPartition.numKeys = some 1 := by
    decide +kernel
  obtain ⟨p, hrun, -, hlength, -, hlisted⟩ := @calls_keep_partition Cbor2.shortest Cbor2.shortest_minimal .lp64
    [.change (.set (Key.new [0x61]) (.uint 7)), .change (.set (Key.new [0x62]) (.str [0x78])),
      .cborMap .bits64 (List.replicate 8 0), .change (.removeKey (Key.new [0x61])), .getUint (Key.new [0x61])]
  rw [hrun] at hcount
  exact ⟨p, hrun, hlength, Option.some_injective _ hcount, hlisted (by simp)⟩

/-- Whatever calls two partitions of a layout went through, the one's image loads into the other, which then lists
the same keys with the same types and gives every getter's answer as the one does. An image with another CRC than
its content's, or with more than fifty keys, is refused and leaves no key listed. -/
theorem save_then_load [Cbor2] [Cbor2.Minimal] (l : Layout) (calls others : List Call) :
    (∃ p saved q r, runCalls (.new l) calls = some p ∧ p.sealImage = some (saved, q) ∧
      runCalls (.new l) others = some r ∧
        ∀ read : Read r.layout.imageLen, read.ok = true → read.content = saved →
          ∃ s, r.loadWith read = some (true, s) ∧ s.numKeys = p.numKeys ∧ s.storedKeys = p.storedKeys ∧
            ∀ key, SameReadings s p key) ∧
    ∀ (r : ConfigPartition) (read : Read r.layout.imageLen),
      crc32Ieee (read.content.drop 4) ≠ UInt32.ofNat (Bytes.leNat (read.content.take 4)) ∨
        maxNumKv < (read.content.byteAt 8).toNat →
          ∃ s, r.loadWith read = some (false, s) ∧ s.numKeys = 0 ∧ s.storedKeys = some [] := by
  constructor
  · obtain ⟨p, hrun, hp⟩ := runCalls_any (l := l) calls
    obtain ⟨r, hother, hr⟩ := runCalls_any (l := l) others
    refine ⟨p, p.withCrc.imageBytes, p.withCrc, r, hrun, sealImage_eq p, hother, fun read hok hcontent => ?_⟩
    obtain ⟨s, hload, hrestores⟩ :=
      load_sealed hp.bounded.1 (hr.bounded.2.trans hp.bounded.2.symm) read hok hcontent
    exact ⟨s, hload, hrestores.numKeys, hrestores.storedKeys, hrestores.reads⟩
  · exact fun r read hbad => load_refused read hbad

/-- A number is loaded over a partition that had another key. -/
theorem save_then_load_number : ∃ p saved q r,
    @runCalls Cbor2.shortest (.new .lp64) [.change (.set (Key.new [0x61]) (.uint 7))] = some p ∧
    p.sealImage = some (saved, q) ∧
    @runCalls Cbor2.shortest (.new .lp64) [.change (.set (Key.new [0x62]) (.str [0x78]))] = some r ∧
      ∀ read : Read r.layout.imageLen, read.ok = true → read.content = saved →
        ∃ s, r.loadWith read = some (true, s) ∧ s.numKeys = 1 ∧ s.getUint (Key.new [0x61]) = some (some 7) := by
  have hread : (@runCalls Cbor2.shortest (.new .lp64) [.change (.set (Key.new [0x61]) (.uint 7))]).map
      (fun p => (p.numKeys, p.getUint (Key.new [0x61]))) = some (1, some (some 7)) := by
    decide +kernel
  obtain ⟨⟨p, saved, q, r, hrun, hseal, hother, hload⟩, -⟩ := @save_then_load Cbor2.shortest Cbor2.shortest_minimal
    .lp64 [.change (.set (Key.new [0x61]) (.uint 7))] [.change (.set (Key.new [0x62]) (.str [0x78]))]
  rw [hrun, Option.map_some, Option.some_inj, Prod.mk.injEq] at hread
  refine ⟨p, saved, q, r, hrun, hseal, hother, fun read hok hcontent => ?_⟩
  obtain ⟨s, hs, hcount, -, hreads⟩ := hload read hok hcontent
  exact ⟨s, hs, hcount.trans hread.1, (hreads _).getUint.trans hread.2⟩

end Bristlemouth.Config
