import Bristlemouth.Config.KeyValue

/-!
# Saving and loading

`seal` writes the CRC over everything that follows it in the image, and `load_with` accepts an image by
that CRC and its count. What a load accepts is the image's fields, so nothing of the partition that loads
remains in them.
-/

set_option autoImplicit false

namespace Bristlemouth.Config

open Bytes

namespace ConfigPartition

variable {p r : ConfigPartition} {content : Bytes}

theorem length_imageBytes (p : ConfigPartition) : p.imageBytes.length = p.layout.imageLen := by
  apply length_slice
  rw [p.length_image]
  have hle := p.layout.imageLen_le
  omega

/-- An image read over a partition is all that is left in its range. -/
theorem slice_withImage (hlen : content.length = r.layout.imageLen) {off n : Nat}
    (hfit : off + n ≤ r.layout.imageLen) : (r.withImage content).image.slice off n = content.slice off n := by
  have hle := r.layout.imageLen_le
  rw [withImage, image_put (by omega)]
  have hroom : 0 + content.length ≤ r.image.length := by
    rw [r.length_image]
    omega
  have hinside : (r.image.copyAt 0 content).slice off n = content.slice (off - 0) n :=
    slice_copyAt_inside hroom (Nat.zero_le _) (by omega)
  exact hinside

theorem covered_withImage (hlen : content.length = r.layout.imageLen) :
    (r.withImage content).covered = content.drop 4 := by
  have hlayout : (r.withImage content).layout = r.layout := layout_put ..
  have hnine := four_le_imageLen r.layout
  rw [covered, hlayout, slice_withImage hlen (by omega), slice]
  apply List.take_of_length_le
  rw [List.length_drop]
  omega

theorem crc32_withImage (hlen : content.length = r.layout.imageLen) :
    (r.withImage content).crc32 = UInt32.ofNat (leNat (content.take 4)) := by
  have hnine := four_le_imageLen r.layout
  rw [crc32, slice_withImage hlen (by omega)]
  rfl

theorem numKeys_withImage (hlen : content.length = r.layout.imageLen) :
    (r.withImage content).numKeys = (content.byteAt 8).toNat := by
  have hnine := four_le_imageLen r.layout
  have hslice : (r.withImage content).image.slice 8 1 = content.slice 8 1 := slice_withImage hlen (by omega)
  have hbyte := congrArg (fun b : Bytes => b.byteAt 0) hslice
  simp only [byteAt_slice Nat.one_pos] at hbyte
  exact congrArg UInt8.toNat hbyte

theorem accepts_iff (hlen : content.length = r.layout.imageLen) (ok : Bool) :
    (r.withImage content).Accepts ok ↔
      ok = true ∧ crc32Ieee (content.drop 4) = UInt32.ofNat (leNat (content.take 4)) ∧
        (content.byteAt 8).toNat ≤ maxNumKv := by
  rw [Accepts, covered_withImage hlen, crc32_withImage hlen, numKeys_withImage hlen]

/-- The fields of an image that was saved. -/
theorem field_withImage (hlayout : r.layout = p.layout) {f : Field} (hf : f.Valid) :
    (r.withImage p.imageBytes).field f = p.field f := by
  have hlen : p.imageBytes.length = r.layout.imageLen := by rw [length_imageBytes, hlayout]
  have hfits := p.layout.fits hf
  have hlayout' : (r.withImage p.imageBytes).layout = p.layout := (layout_put ..).trans hlayout
  rw [field, hlayout', slice_withImage hlen (by rw [hlayout]; exact hfits), imageBytes,
    slice_slice hfits, Nat.zero_add]
  rfl

theorem keeps_withImage (hlayout : r.layout = p.layout) : Keeps p (r.withImage p.imageBytes) :=
  Keeps.of_fields ((layout_put ..).trans hlayout) fun _ hf _ _ => field_withImage hlayout hf

/-- The CRC of a sealed image is the one of its content. -/
theorem sealed_crc (p : ConfigPartition) :
    crc32Ieee (p.withCrc.imageBytes.drop 4) = UInt32.ofNat (leNat (p.withCrc.imageBytes.take 4)) := by
  have hnine := four_le_imageLen p.layout
  have hle := p.layout.imageLen_le
  have hlayout : p.withCrc.layout = p.layout := layout_putIn ..
  have hdata : (leBytes 4 (crc32Ieee p.covered).toNat).length = 4 := length_leBytes ..
  have himage : p.withCrc.image = p.image.copyAt 0 (leBytes 4 (crc32Ieee p.covered).toNat) :=
    image_putIn (f := .crc) (i := 0) trivial (by rw [hdata]; exact Nat.le_refl 4)
  have hfit : 0 + (leBytes 4 (crc32Ieee p.covered).toNat).length ≤ p.image.length := by
    rw [hdata, p.length_image]
    omega
  have hdrop : p.withCrc.imageBytes.drop 4 = p.covered := by
    have hslice : p.withCrc.imageBytes.drop 4 = p.withCrc.imageBytes.slice 4 (p.layout.imageLen - 4) := by
      rw [slice, List.take_of_length_le]
      rw [List.length_drop, length_imageBytes, hlayout]
    rw [hslice, imageBytes, hlayout, slice_slice (by omega), himage,
      slice_copyAt_of_disjoint hfit (Or.inr (by rw [hdata]))]
    rfl
  have htake : p.withCrc.imageBytes.take 4 = leBytes 4 (crc32Ieee p.covered).toNat := by
    have hslice : p.withCrc.imageBytes.take 4 = p.withCrc.imageBytes.slice 0 4 := rfl
    rw [hslice, imageBytes, hlayout, slice_slice (by omega), himage]
    have hself : (p.image.copyAt 0 (leBytes 4 (crc32Ieee p.covered).toNat)).slice 0
        (leBytes 4 (crc32Ieee p.covered).toNat).length = _ := slice_copyAt _ (Nat.zero_le _)
    rw [hdata] at hself
    exact hself
  have hmod : (crc32Ieee p.covered).toNat % 256 ^ 4 = (crc32Ieee p.covered).toNat :=
    Nat.mod_eq_of_lt (crc32Ieee p.covered).toNat_lt
  rw [hdrop, htake, leNat_leBytes, hmod]
  exact (UInt32.ofNat_toNat).symm

theorem storedKeys_eq (hn : p.numKeys ≤ maxNumKv) :
    p.storedKeys = some (p.listed.map fun c => ⟨c.keyBuf, c.keyLen, c.valueType⟩) := by
  rw [storedKeys, listed, List.map_map]
  have hlt : ∀ i ∈ List.range p.numKeys, i < maxNumKv := fun i hi =>
    lt_of_lt_of_le (List.mem_range.mp hi) hn
  generalize List.range p.numKeys = l at hlt
  induction l with
  | nil => rfl
  | cons i l ih =>
    have hrest := ih fun j hj => hlt j (List.mem_cons_of_mem _ hj)
    rw [List.mapM_cons, storedKey_eq (hlt i List.mem_cons_self), hrest]
    rfl

theorem Keeps.sameReadings (h : Keeps p r) (hn : p.numKeys ≤ maxNumKv) (key : Key) :
    SameReadings r p key := by
  refine SameReadings.of_entry (by rw [h.numKeys]; exact hn) hn ?_
  rw [entry, entry, h.listed hn]

theorem Keeps.trans {q : ConfigPartition} (h : Keeps p q) (h' : Keeps q r) : Keeps p r where
  layout := h'.layout.trans h.layout
  numKeys := h'.numKeys.trans h.numKeys
  cell i hi := (h'.cell i hi).trans (h.cell i hi)

/-- A load gives back the keys, in their order, and whatever a getter read of them. -/
structure Restores (p q : ConfigPartition) : Prop where
  numKeys : q.numKeys = p.numKeys
  storedKeys : q.storedKeys = p.storedKeys
  reads : ∀ key, SameReadings q p key

theorem Keeps.restores (h : Keeps p r) (hn : p.numKeys ≤ maxNumKv) : Restores p r where
  numKeys := h.numKeys
  storedKeys := by rw [storedKeys_eq hn, storedKeys_eq (by rw [h.numKeys]; exact hn), h.listed hn]
  reads := h.sameReadings hn

/-- A sealed image is accepted by every partition of its layout. -/
theorem load_sealed (hn : p.numKeys ≤ maxNumKv) (hlayout : r.layout = p.layout)
    (read : Read r.layout.imageLen) (hok : read.ok = true) (hcontent : read.content = p.withCrc.imageBytes) :
    ∃ q, r.loadWith read = some (true, q) ∧ Restores p q := by
  have hsealed : Keeps p p.withCrc := keeps_crc p _
  have hsame : r.layout = p.withCrc.layout := hlayout.trans hsealed.layout.symm
  have hcount : (p.withCrc.imageBytes.byteAt 8).toNat = p.numKeys := by
    have hnine := four_le_imageLen p.layout
    rw [imageBytes, byteAt_slice (by rw [hsealed.layout]; omega), Nat.zero_add, ← hsealed.numKeys]
    rfl
  have haccepts : (r.withImage read.content).Accepts read.ok := by
    rw [accepts_iff read.length_content, hcontent, hcount]
    exact ⟨hok, sealed_crc p, hn⟩
  rcases loadWith_cases r read with ⟨-, hload⟩ | ⟨hnot, -⟩
  · refine ⟨_, hload, ?_⟩
    rw [hcontent]
    exact (hsealed.trans (keeps_withImage hsame)).restores hn
  · exact absurd haccepts hnot

/-- An image with another CRC than its content's, or with too many keys, is refused. -/
theorem load_refused (read : Read r.layout.imageLen)
    (hbad : crc32Ieee (read.content.drop 4) ≠ UInt32.ofNat (leNat (read.content.take 4)) ∨
      maxNumKv < (read.content.byteAt 8).toNat) :
    ∃ s, r.loadWith read = some (false, s) ∧ s.numKeys = 0 ∧ s.storedKeys = some [] := by
  rcases loadWith_cases r read with ⟨haccepts, -⟩ | ⟨-, s, hload, hzero, -, -⟩
  · rw [accepts_iff read.length_content] at haccepts
    rcases hbad with hcrc | hcount
    · exact absurd haccepts.2.1 hcrc
    · exact absurd haccepts.2.2 (Nat.not_le_of_lt hcount)
  · refine ⟨s, hload, hzero, ?_⟩
    rw [storedKeys, hzero]
    rfl

end ConfigPartition

open ConfigPartition

/-- A partition that is saved and loaded reads as it did, and an image with another CRC or too many keys
is refused. -/
theorem save_load [Cbor2] [Cbor2.Minimal] {l : Layout} {p : ConfigPartition}
    (hp : Reached (fun _ _ => True) l p) :
    (∃ saved q, p.sealImage = some (saved, q) ∧ ∀ (r : ConfigPartition) (read : Read r.layout.imageLen),
      r.layout = l → read.ok = true → read.content = saved →
        ∃ s, r.loadWith read = some (true, s) ∧ Restores p s) ∧
    ∀ (r : ConfigPartition) (read : Read r.layout.imageLen),
      crc32Ieee (read.content.drop 4) ≠ UInt32.ofNat (leNat (read.content.take 4)) ∨
        maxNumKv < (read.content.byteAt 8).toNat →
          ∃ s, r.loadWith read = some (false, s) ∧ s.numKeys = 0 ∧ s.storedKeys = some [] := by
  obtain ⟨hn, hlayout⟩ := hp.bounded
  constructor
  · refine ⟨p.withCrc.imageBytes, p.withCrc, sealImage_eq p, fun r read hr hok hcontent => ?_⟩
    exact load_sealed hn (hr.trans hlayout.symm) read hok hcontent
  · exact fun r read hbad => load_refused read hbad

/-- A partition of two keys is loaded into a new one, but not where its image counts fifty-one. -/
theorem save_load_twoKeys : ∃ saved q, twoKeys.sealImage = some (saved, q) ∧
    (∀ read : Read Layout.lp64.imageLen, read.ok = true → read.content = saved →
      ∃ s, (ConfigPartition.new .lp64).loadWith read = some (true, s) ∧ s.numKeys = 2 ∧
        s.getUint (Key.new [0x61]) = some (some 7)) ∧
    ∀ read : Read Layout.lp64.imageLen, read.content = saved.copyAt 8 [51] →
      ∃ s, (ConfigPartition.new .lp64).loadWith read = some (false, s) ∧ s.storedKeys = some [] := by
  obtain ⟨⟨saved, q, hseal, hload⟩, hrefused⟩ := @save_load Cbor2.shortest Cbor2.shortest_minimal .lp64 twoKeys
    (reached_twoKeys fun _ => ⟨trivial, trivial⟩)
  have hkeys : twoKeys.numKeys = 2 ∧ twoKeys.getUint (Key.new [0x61]) = some (some 7) := by decide +kernel
  refine ⟨saved, q, hseal, fun read hok hcontent => ?_, fun read hcontent => ?_⟩
  · obtain ⟨s, hs, hrestores⟩ := hload (.new .lp64) read rfl hok hcontent
    exact ⟨s, hs, hrestores.numKeys.trans hkeys.1, (hrestores.reads _).getUint.trans hkeys.2⟩
  · have hlen : 8 + [(51 : UInt8)].length ≤ saved.length := by
      have hsaved := (sealImage_eq twoKeys).symm.trans hseal
      rw [Option.some_inj, Prod.mk.injEq] at hsaved
      rw [← hsaved.1, length_imageBytes]
      exact four_le_imageLen _
    have hcount : read.content.byteAt 8 = 51 := by
      rw [hcontent]
      exact byteAt_copyAt_self hlen
    obtain ⟨s, hs, -, hnone⟩ := hrefused (.new .lp64) read (.inr (by rw [hcount]; decide))
    exact ⟨s, hs, hnone⟩

end Bristlemouth.Config
