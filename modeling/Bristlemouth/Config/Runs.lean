import Bristlemouth.Config.Setters
import Bristlemouth.Config.Values

/-!
# Runs of a partition

`Op` is a call that changes a partition. `Outcome` says what each one does, in terms of the cells;
`Reached` is a run of them from a new partition, and `Reached.invariant` the induction over it.
-/

set_option autoImplicit false

namespace Bristlemouth.Config

open Bytes ConfigPartition

inductive Op where
  | set (key : Key) (value : TypedValue)
  | setCbor (key : Key) (value : Bytes)
  | removeKey (key : Key)
  | clear
  | sealImage
  | markSaved
  | load (read : ∀ l : Layout, Read l.imageLen)

def Op.run [Cbor2] (p : ConfigPartition) : Op → Option (Bool × ConfigPartition)
  | set key value => p.set key value
  | setCbor key value => p.setCbor key value
  | removeKey key => p.removeKey key
  | clear => p.clear.map fun q => (true, q)
  | sealImage => p.sealImage.map fun r => (true, r.2)
  | markSaved => some (true, p.markSaved)
  | load read => p.loadWith (read p.layout)

namespace ConfigPartition

variable {p q : ConfigPartition}

/-- The count and the cells are as they were. -/
structure Keeps (p q : ConfigPartition) : Prop where
  layout : q.layout = p.layout
  numKeys : q.numKeys = p.numKeys
  cell : ∀ i, i < maxNumKv → q.cell i = p.cell i

theorem Keeps.of_fields (hlayout : q.layout = p.layout)
    (h : ∀ f : Field, f.Valid → f ≠ .crc → f ≠ .version → q.field f = p.field f) : Keeps p q where
  layout := hlayout
  numKeys := numKeys_of_field (h .numKeys trivial (by simp) (by simp))
  cell i hi := cell_of_fields (h (.keyBuf i) hi (by simp) (by simp))
    (h (.keyLen i) hi (by simp) (by simp)) (h (.valueType i) hi (by simp) (by simp))
    (h (.slot i) hi (by simp) (by simp))

theorem putU32_crc (p : ConfigPartition) (v : UInt32) :
    p.putU32 0 v = some (p.putIn .crc 0 (leBytes 4 v.toNat)) :=
  write?_putIn (f := .crc) (i := 0) trivial (by simp [Layout.width])

theorem putU32_version (p : ConfigPartition) (v : UInt32) :
    p.putU32 4 v = some (p.putIn .version 0 (leBytes 4 v.toNat)) :=
  write?_putIn (f := .version) (i := 0) trivial (by simp [Layout.width])

theorem keeps_crc (p : ConfigPartition) (v : UInt32) :
    Keeps p (p.putIn .crc 0 (leBytes 4 v.toNat)) :=
  Keeps.of_fields (by simp) fun _ hg hne _ =>
    field_putIn_of_ne (f := .crc) (i := 0) trivial hg (Ne.symm hne) (by simp [Layout.width])

theorem keeps_version (p : ConfigPartition) (v : UInt32) :
    Keeps p (p.putIn .version 0 (leBytes 4 v.toNat)) :=
  Keeps.of_fields (by simp) fun _ hg _ hne =>
    field_putIn_of_ne (f := .version) (i := 0) trivial hg (Ne.symm hne) (by simp [Layout.width])

/-- The bytes the CRC covers. -/
def covered (p : ConfigPartition) : Bytes := p.image.slice 4 (p.layout.imageLen - 4)

theorem four_le_imageLen (l : Layout) : 9 ≤ l.imageLen := by
  simp only [Layout.imageLen, headerLen]
  omega

theorem slice?_covered (p : ConfigPartition) :
    p.image.slice? 4 (p.layout.imageLen - 4) = some p.covered := by
  have hle := p.layout.imageLen_le
  have hnine := four_le_imageLen p.layout
  exact slice?_of_le (by rw [p.length_image]; omega)

theorem slice?_imageBytes (p : ConfigPartition) :
    p.image.slice? 0 p.layout.imageLen = some p.imageBytes := by
  have hle := p.layout.imageLen_le
  exact slice?_of_le (by rw [p.length_image]; omega)

/-- The partition `seal` leaves. -/
def withCrc (p : ConfigPartition) : ConfigPartition :=
  p.putIn .crc 0 (leBytes 4 (crc32Ieee p.covered).toNat)

theorem sealImage_eq (p : ConfigPartition) :
    p.sealImage = some (p.withCrc.imageBytes, p.withCrc) := by
  simp only [sealImage, slice?_covered, Option.bind_eq_bind, Option.bind_some, putU32_crc]
  rw [← withCrc, slice?_imageBytes, Option.bind_some]

@[simp] theorem numKeys_zeroed (l : Layout) (b : Bool) : (zeroed l b).numKeys = 0 := by
  simp [zeroed, numKeys, byteAt, List.getElem?_replicate]
  split <;> rfl

theorem clear_eq (p : ConfigPartition) :
    ∃ q, p.clear = some q ∧ q.numKeys = 0 ∧ q.layout = p.layout ∧ q.needsCommit = true := by
  have hkeeps := keeps_version (zeroed p.layout p.needsCommit) (UInt32.ofNat configVersion)
  refine ⟨((zeroed p.layout p.needsCommit).putIn .version 0
    (leBytes 4 (UInt32.ofNat configVersion).toNat)).withCommit, ?_, ?_, hkeeps.layout, rfl⟩
  · simp [clear, putU32_version, withCommit]
  · rw [numKeys_withCommit, hkeeps.numKeys, numKeys_zeroed]

/-- The partition with an image read over its own. -/
def withImage (p : ConfigPartition) (content : Bytes) : ConfigPartition := p.put 0 content

/-- An image is accepted when its CRC and its count are. -/
def Accepts (p : ConfigPartition) (ok : Bool) : Prop :=
  ok = true ∧ crc32Ieee p.covered = p.crc32 ∧ p.numKeys ≤ maxNumKv

instance (p : ConfigPartition) (ok : Bool) : Decidable (p.Accepts ok) := by
  unfold Accepts
  infer_instance

theorem loadWith_cases (p : ConfigPartition) (read : Read p.layout.imageLen) :
    (p.withImage read.content).Accepts read.ok ∧
        p.loadWith read = some (true, p.withImage read.content) ∨
      ¬ (p.withImage read.content).Accepts read.ok ∧
        ∃ q, p.loadWith read = some (false, q) ∧ q.numKeys = 0 ∧ q.layout = p.layout ∧
          q.needsCommit = p.needsCommit := by
  have hle := p.layout.imageLen_le
  have hlayout : (p.withImage read.content).layout = p.layout := layout_put ..
  have hwrite : p.write? 0 read.content = some (p.withImage read.content) :=
    write?_eq (by rw [read.length_content]; omega)
  simp only [loadWith, hwrite, Option.bind_eq_bind, Option.bind_some, slice?_covered]
  by_cases hok : (p.withImage read.content).Accepts read.ok
  · exact .inl ⟨hok, if_pos hok⟩
  · have hzero : (p.withImage read.content).write? 8 [0]
        = some ((p.withImage read.content).withNumKeys 0) :=
      write?_putIn (f := .numKeys) (i := 0) trivial (Nat.le_refl 1)
    have hkeeps := keeps_version ((p.withImage read.content).withNumKeys 0)
      (UInt32.ofNat configVersion)
    refine .inr ⟨hok, _, (if_neg hok).trans ?_, hkeeps.numKeys.trans (numKeys_withNumKeys (by omega)),
      by simp [hlayout], by simp [withNumKeys, withImage]⟩
    rw [hzero, Option.bind_some, putU32_version]
    rfl

inductive Outcome [Cbor2] (p : ConfigPartition) : Op → Bool → ConfigPartition → Prop
  | set {key : Key} {v : TypedValue} {ok : Bool} {q : ConfigPartition}
      (h : SetTyped p key v.type v.encode ok q) : Outcome p (.set key v) ok q
  | setCbor {key : Key} {value : Bytes} {ok : Bool} {q : ConfigPartition}
      (h : SetCbor p key value ok q) : Outcome p (.setCbor key value) ok q
  | removeKey {key : Key} {ok : Bool} {q : ConfigPartition}
      (h : Removal p key ok q) : Outcome p (.removeKey key) ok q
  | clear {q : ConfigPartition} (hzero : q.numKeys = 0) (hlayout : q.layout = p.layout)
      (hcommit : q.needsCommit = true) : Outcome p .clear true q
  | sealImage {q : ConfigPartition} (h : Keeps p q) (hcommit : q.needsCommit = p.needsCommit) :
      Outcome p .sealImage true q
  | markSaved {q : ConfigPartition} (h : Keeps p q) (hcommit : q.needsCommit = false) :
      Outcome p .markSaved true q
  | load {read : ∀ l : Layout, Read l.imageLen} {ok : Bool} {q : ConfigPartition}
      (hcount : q.numKeys ≤ maxNumKv) (hlayout : q.layout = p.layout) : Outcome p (.load read) ok q

/-- No call fails, and what it can do is one of the outcomes. -/
theorem run_cases [Cbor2] [Cbor2.Minimal] (hn : p.numKeys ≤ maxNumKv) (op : Op) :
    ∃ ok q, op.run p = some (ok, q) ∧ Outcome p op ok q := by
  cases op with
  | set key v =>
    have hset : ∃ ok q, p.setTyped key v.type v.encode = some (ok, q) ∧
        SetTyped p key v.type v.encode ok q := setTyped_cases hn fun s hs => length_encode v hs
    obtain ⟨ok, q, hrun, hset⟩ := hset
    exact ⟨ok, q, (set_eq p key v).trans hrun, .set hset⟩
  | setCbor key value =>
    obtain ⟨ok, q, hrun, hset⟩ := setCbor_cases hn key value
    exact ⟨ok, q, hrun, .setCbor hset⟩
  | removeKey key =>
    obtain ⟨ok, q, hrun, hremoval⟩ := removeKey_cases hn key
    exact ⟨ok, q, hrun, .removeKey hremoval⟩
  | clear =>
    obtain ⟨q, hrun, hzero, hlayout, hcommit⟩ := clear_eq p
    exact ⟨true, q, by simp [Op.run, hrun], .clear hzero hlayout hcommit⟩
  | sealImage =>
    refine ⟨true, p.withCrc, by simp [Op.run, sealImage_eq], .sealImage (keeps_crc p _) ?_⟩
    exact needsCommit_putIn ..
  | markSaved => exact ⟨true, p.markSaved, rfl, .markSaved ⟨rfl, rfl, fun _ _ => rfl⟩ rfl⟩
  | load read =>
    rcases loadWith_cases p (read p.layout) with ⟨hok, hrun⟩ | ⟨-, q, hrun, hzero, hlayout, -⟩
    · exact ⟨true, _, hrun, .load hok.2.2 (layout_put ..)⟩
    · exact ⟨false, q, hrun, .load (by omega) hlayout⟩

theorem Stores.bounded {idx : Nat} {c : Cell} (hn : p.numKeys ≤ maxNumKv) (h : Stores p q idx c)
    (hidx : idx < maxNumKv) (hle : idx ≤ p.numKeys) : q.numKeys ≤ maxNumKv := by
  rw [h.numKeys]
  split_ifs <;> omega

theorem Outcome.bounded [Cbor2] [Cbor2.Minimal] {op : Op} {ok : Bool} (hn : p.numKeys ≤ maxNumKv)
    (h : Outcome p op ok q) : q.numKeys ≤ maxNumKv ∧ q.layout = p.layout := by
  have hfifty : slotLen = 50 := rfl
  cases h with
  | @set key v ok q h =>
    cases h with
    | refused => exact ⟨hn, rfl⟩
    | failed idx hlen hroom hplace hfail =>
      have hidx := (place_lt hn hplace).1
      have hencoded := length_encode v (length_slot (p := p) hidx)
      refine ⟨?_, by simp⟩
      rw [numKeys_withSlot hidx (by omega), numKeys_withKeyBuf hidx]
      exact hn
    | stored idx q hlen hroom hplace hok hstores =>
      obtain ⟨hidx, hle⟩ := place_lt hn hplace
      exact ⟨hstores.bounded hn hidx hle, hstores.layout⟩
  | setCbor h =>
    cases h with
    | refused => exact ⟨hn, rfl⟩
    | untyped hlen hroom hplace => exact ⟨by rw [numKeys_withKeyBuf hroom]; exact hn, by simp⟩
    | stored idx q hlen hvalue hhead hty hplace hstores =>
      obtain ⟨hidx, hle⟩ := place_lt hn hplace
      exact ⟨hstores.bounded hn hidx hle, hstores.layout⟩
  | removeKey h =>
    cases h with
    | missing => exact ⟨hn, rfl⟩
    | removed idx q hfind hremoves =>
      have hnum := hremoves.numKeys
      exact ⟨by omega, hremoves.layout⟩
  | clear hzero hlayout => exact ⟨by omega, hlayout⟩
  | sealImage h | markSaved h => exact ⟨by rw [h.numKeys]; exact hn, h.layout⟩
  | load hcount hlayout => exact ⟨hcount, hlayout⟩

end ConfigPartition

/-- The calls one after the other. -/
def runAll [Cbor2] (p : ConfigPartition) (ops : List Op) : Option ConfigPartition :=
  ops.foldlM (fun p op => (op.run p).map Prod.snd) p

/-- A run of calls from a new partition, each of them `allowed` where it is made. -/
inductive Reached [Cbor2] (allowed : ConfigPartition → Op → Prop) (l : Layout) :
    ConfigPartition → Prop
  | new : Reached allowed l (.new l)
  | step {p q : ConfigPartition} {op : Op} {ok : Bool} (hp : Reached allowed l p)
      (hallowed : allowed p op) (hrun : op.run p = some (ok, q)) : Reached allowed l q

namespace Reached

variable [Cbor2] [Cbor2.Minimal] {allowed : ConfigPartition → Op → Prop} {l : Layout}
  {p : ConfigPartition}

theorem bounded (h : Reached allowed l p) : p.numKeys ≤ maxNumKv ∧ p.layout = l := by
  induction h with
  | new => exact ⟨by simp [ConfigPartition.new], rfl⟩
  | step hp hallowed hrun ih =>
    obtain ⟨ok, q, hrun', houtcome⟩ := run_cases ih.1 _
    cases hrun.symm.trans hrun'
    exact ⟨(houtcome.bounded ih.1).1, (houtcome.bounded ih.1).2.trans ih.2⟩

/-- What holds of a new partition and is kept by every outcome holds in every run. -/
theorem invariant {inv : ConfigPartition → Prop} (hnew : inv (.new l))
    (hstep : ∀ p op ok q, p.numKeys ≤ maxNumKv → inv p → allowed p op → Outcome p op ok q → inv q)
    (h : Reached allowed l p) : inv p := by
  induction h with
  | new => exact hnew
  | step hp hallowed hrun ih =>
    obtain ⟨ok, q, hrun', houtcome⟩ := run_cases hp.bounded.1 _
    cases hrun.symm.trans hrun'
    exact hstep _ _ _ _ hp.bounded.1 ih hallowed houtcome

theorem runAll {ops : List Op} (hall : ∀ op ∈ ops, ∀ p, allowed p op) {q : ConfigPartition}
    (hp : Reached allowed l p) (h : Config.runAll p ops = some q) : Reached allowed l q := by
  induction ops generalizing p with
  | nil =>
    cases h
    exact hp
  | cons op ops ih =>
    obtain ⟨ok, r, hrun, -⟩ := run_cases hp.bounded.1 op
    simp only [Config.runAll, List.foldlM_cons, hrun, Option.map_some, Option.bind_eq_bind,
      Option.bind_some] at h
    exact ih (fun op' hop' => hall op' (List.mem_cons_of_mem op hop'))
      (hp.step (hall op List.mem_cons_self p) hrun) h

end Reached

/-- A number under `a` and a text under `b`. -/
def twoKeys : ConfigPartition :=
  (@runAll Cbor2.shortest (.new .lp64)
    [.set (Key.new [0x61]) (.uint 7), .set (Key.new [0x62]) (.str [0x78])]).getD (.new .lp64)

theorem reached_twoKeys {allowed : ConfigPartition → Op → Prop}
    (hall : ∀ p, allowed p (.set (Key.new [0x61]) (.uint 7)) ∧ allowed p (.set (Key.new [0x62]) (.str [0x78]))) :
    @Reached Cbor2.shortest allowed .lp64 twoKeys := by
  have hnew := @Reached.new Cbor2.shortest allowed .lp64
  rw [twoKeys]
  cases h : @runAll Cbor2.shortest (.new .lp64)
      [.set (Key.new [0x61]) (.uint 7), .set (Key.new [0x62]) (.str [0x78])] with
  | none => exact hnew
  | some p =>
    refine @Reached.runAll Cbor2.shortest Cbor2.shortest_minimal allowed .lp64 _ _ ?_ p hnew h
    intro op hop q
    rcases List.mem_pair.mp hop with rfl | rfl
    · exact (hall q).1
    · exact (hall q).2

end Bristlemouth.Config
