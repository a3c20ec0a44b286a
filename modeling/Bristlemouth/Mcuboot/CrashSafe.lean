import Bristlemouth.Mcuboot.Device

/-!
# Pending and confirming, with failures

`set_pending` on an erased trailer is a list of writes to blocks apart from each other, so that what
is read back after some of them is known field by field.
-/

set_option autoImplicit false

namespace Bristlemouth.Mcuboot

/-! ### What is read -/

/-- The state that the contents of a slot say. -/
def stateOf (t : Trailer) (bytes : Bytes) : SwapState :=
  let info := classifySwapInfo ((bytes.slice t.swapInfoOff.toNat 1).byteAt 0)
  { magic := classifyMagic t (bytes.slice t.magicOff.toNat magicSize)
    swapType := info.1
    imageNum := info.2
    copyDone := classifyFlag ((bytes.slice t.copyDoneOff.toNat 1).byteAt 0)
    imageOk := classifyFlag ((bytes.slice t.imageOkOff.toNat 1).byteAt 0) }

/-- A computation that leaves `f` of the flash as it is. -/
def Leaves {F α β : Type} (f : F → β) (x : FlashM F α) : Prop := ∀ s, f (x s).2 = f s

theorem Leaves.bind {F α β γ : Type} {f : F → γ} {x : FlashM F α} {g : α → FlashM F β}
    (hx : Leaves f x) (hg : ∀ a, Leaves f (g a)) : Leaves f (x >>= g) := by
  intro s
  have hs := hx s
  cases h : x s with
  | mk r s₁ =>
    rw [h] at hs
    cases r with
    | error e => rw [FlashM.bind_error h]; exact hs
    | ok a => rw [FlashM.bind_ok h]; exact (hg a s₁).trans hs

theorem Leaves.pure {F α γ : Type} (f : F → γ) (a : α) : Leaves f (pure a : FlashM F α) :=
  fun _ => rfl

/-- A computation that never fails. -/
def Succeeds {F α : Type} (x : FlashM F α) : Prop := ∀ s, ∃ a s', x s = (.ok a, s')

theorem Succeeds.bind {F α β : Type} {x : FlashM F α} {g : α → FlashM F β} (hx : Succeeds x)
    (hg : ∀ a, Succeeds (g a)) : Succeeds (x >>= g) := by
  intro s
  obtain ⟨a, s₁, ha⟩ := hx s
  obtain ⟨b, s₂, hb⟩ := hg a s₁
  exact ⟨b, s₂, by rw [FlashM.bind_ok ha, hb]⟩

theorem Succeeds.pure {F α : Type} (a : α) : Succeeds (pure a : FlashM F α) :=
  fun s => ⟨a, s, rfl⟩

theorem FlashM.ok_of_bind {F α β : Type} {x : FlashM F α} {g : α → FlashM F β} {s s' : F} {b : β}
    (h : (x >>= g) s = (.ok b, s')) : ∃ a s₁, x s = (.ok a, s₁) ∧ g a s₁ = (.ok b, s') := by
  cases hx : x s with
  | mk r s₁ =>
    cases r with
    | error e => rw [FlashM.bind_error hx] at h; cases h
    | ok a => exact ⟨a, s₁, rfl, by rw [← h, FlashM.bind_ok hx]⟩

section Reads

variable {F : Type} [Flash F]

theorem leaves_readSwapState {β : Type} {f : F → β}
    (hread : ∀ off len, Leaves f (Flash.read off len : FlashM F Bytes)) (t : Trailer) :
    Leaves f (readSwapState t : FlashM F SwapState) := by
  have hflag : ∀ off, Leaves f (readFlag off : FlashM F Flag) :=
    fun off => (hread off 1).bind fun _ => Leaves.pure f _
  refine (hread _ _).bind fun magic => (hread _ _).bind fun swapInfo => ?_
  exact (hflag _).bind fun copyDone => (hflag _).bind fun imageOk => Leaves.pure f _

section

variable [Device F]

theorem leaves_bytes (t : Trailer) :
    Leaves Device.bytes (readSwapState t : FlashM F SwapState) :=
  leaves_readSwapState (fun off len s => Device.read_bytes s off len) t

theorem readFlag_ok {off : UInt32} {s s' : F} {flag : Flag}
    (h : (readFlag off : FlashM F Flag) s = (.ok flag, s')) :
    flag = classifyFlag (((Device.bytes s).slice off.toNat 1).byteAt 0) ∧
      Device.bytes s' = Device.bytes s := by
  obtain ⟨data, s₁, hdata, h⟩ := FlashM.ok_of_bind h
  have hbytes := Device.read_bytes s off 1
  rw [hdata] at hbytes
  cases h
  exact ⟨by rw [Device.read_ok s s' off 1 data hdata], hbytes⟩

/-- What is read back is what the contents say. -/
theorem readSwapState_ok {t : Trailer} {s s' : F} {state : SwapState}
    (h : (readSwapState t : FlashM F SwapState) s = (.ok state, s')) :
    state = stateOf t (Device.bytes s) := by
  obtain ⟨magic, s₁, hmagic, h⟩ := FlashM.ok_of_bind h
  obtain ⟨swapInfo, s₂, hinfo, h⟩ := FlashM.ok_of_bind h
  obtain ⟨copyDone, s₃, hdone, h⟩ := FlashM.ok_of_bind h
  obtain ⟨imageOk, s₄, hok, h⟩ := FlashM.ok_of_bind h
  have hs₁ := Device.read_bytes s t.magicOff magicSize
  have hs₂ := Device.read_bytes s₁ t.swapInfoOff 1
  rw [hmagic] at hs₁
  rw [hinfo] at hs₂
  obtain ⟨hdoneEq, hs₃⟩ := readFlag_ok hdone
  obtain ⟨hokEq, -⟩ := readFlag_ok hok
  rw [Device.read_ok s s₁ t.magicOff magicSize magic hmagic,
    Device.read_ok s₁ s₂ t.swapInfoOff 1 swapInfo hinfo, hdoneEq, hokEq, hs₃, hs₂, hs₁] at h
  cases h
  rfl

end

theorem readSwapState_total [Reliable F] (t : Trailer) (s : F) :
    ∃ s', (readSwapState t : FlashM F SwapState) s = (.ok (stateOf t (Device.bytes s)), s') ∧
      Device.bytes s' = Device.bytes s := by
  have hread : ∀ off len, Succeeds (Flash.read off len : FlashM F Bytes) :=
    fun off len s => Reliable.read_total s off len
  have hflag : ∀ off, Succeeds (readFlag off : FlashM F Flag) :=
    fun off => (hread off 1).bind fun _ => Succeeds.pure _
  have hrun : Succeeds (readSwapState t : FlashM F SwapState) :=
    (hread _ _).bind fun _ => (hread _ _).bind fun _ =>
      (hflag _).bind fun _ => (hflag _).bind fun _ => Succeeds.pure _
  obtain ⟨state, s', h⟩ := hrun s
  have hbytes := leaves_bytes t s
  rw [h] at hbytes
  exact ⟨s', by rw [h, readSwapState_ok h], hbytes⟩

end Reads

/-! ### The writes of `set_pending` -/

def writeAll {F : Type} [Flash F] : List (UInt32 × Bytes) → FlashM F Unit
  | [] => pure ()
  | w :: ws => do
    Flash.write w.1 w.2
    writeAll ws

/-- Two writes to blocks apart from each other. -/
def Apart (a b : UInt32 × Bytes) : Prop :=
  a.1.toNat + a.2.length ≤ b.1.toNat ∨ b.1.toNat + b.2.length ≤ a.1.toNat

/-- Writes to erased blocks apart from each other store every block, and nothing else. -/
theorem run_writeAll {F : Type} [Flash F] [Reliable F] {ws : List (UInt32 × Bytes)}
    (hapart : ws.Pairwise Apart) (s : F)
    (herased : ∀ w ∈ ws, (Device.bytes s).slice w.1.toNat w.2.length = List.replicate w.2.length erased) :
    ∃ s', (writeAll ws : FlashM F Unit) s = (.ok (), s') ∧
      (∀ w ∈ ws, (Device.bytes s').slice w.1.toNat w.2.length = w.2) ∧
      ∀ i n, (∀ w ∈ ws, i + n ≤ w.1.toNat ∨ w.1.toNat + w.2.length ≤ i) →
        (Device.bytes s').slice i n = (Device.bytes s).slice i n := by
  induction ws generalizing s with
  | nil =>
    refine ⟨s, rfl, fun w hw => ?_, fun _ _ _ => rfl⟩
    cases hw
  | cons w ws ih =>
    rw [List.pairwise_cons] at hapart
    obtain ⟨hw, hws⟩ := hapart
    obtain ⟨s₁, h₁⟩ := Reliable.write_total s w.1 w.2
    have hstored := Device.write_ok s s₁ w.1 w.2 h₁
    obtain ⟨s', hrun, hblocks, hframe⟩ := ih hws s₁ fun v hv => by
      rw [hstored.frame _ _ (hw v hv).symm]
      exact herased v (List.mem_cons_of_mem w hv)
    refine ⟨s', (FlashM.bind_ok h₁).trans hrun, ?_, ?_⟩
    · intro v hv
      rcases List.mem_cons.mp hv with rfl | hv
      · rw [hframe _ _ fun u hu => hw u hu]
        have hblock := hstored.stored 0 v.2.length (by omega)
          (by rw [Nat.add_zero]; exact herased v List.mem_cons_self)
        rwa [Nat.add_zero, Bytes.slice_of_length rfl] at hblock
      · exact hblocks v hv
    · intro i n hd
      rw [hframe i n fun u hu => hd u (List.mem_cons_of_mem w hu),
        hstored.frame i n (hd w List.mem_cons_self)]

section Pending

variable (t : Trailer)

/-- Where the write of the magic starts. -/
def Trailer.padOff : UInt32 := t.magicOff &&& ~~~(t.align - 1)

theorem Trailer.padOff_add : t.padOff.toNat + (magicAlignSize t.align).toNat = t.slotSize.toNat :=
  t.toNat_padOff

/-- The offset and the size of the blocks of the magic, `image_ok`, `copy_done` and `swap_info`. -/
def Trailer.blocks : List (Nat × Nat) :=
  [(t.padOff.toNat, (magicAlignSize t.align).toNat),
    (t.imageOkOff.toNat, t.align.toNat), (t.copyDoneOff.toNat, t.align.toNat),
    (t.swapInfoOff.toNat, t.align.toNat)]

def magicBlock : Bytes :=
  List.replicate ((magicAlignSize t.align).toNat - magicSize) erased ++ t.magic

def byteBlock (value : UInt8) : Bytes := value :: List.replicate (t.align.toNat - 1) erased

theorem length_magicBlock : (magicBlock t).length = (magicAlignSize t.align).toNat := by
  have halign := t.align_cases
  simp only [magicBlock, List.length_append, List.length_replicate, Trailer.length_magic, magicSize]
  omega

theorem length_byteBlock (value : UInt8) : (byteBlock t value).length = t.align.toNat := by
  have halign := t.align_cases
  simp only [byteBlock, List.length_cons, List.length_replicate]
  omega

/-- The swap type that `set_pending` asks for. -/
def requested (permanent : Bool) : SwapType := if permanent then .perm else .test

def pendingWrites (permanent : Bool) : List (UInt32 × Bytes) :=
  (t.padOff, magicBlock t) ::
    ((if permanent then [(t.imageOkOff, byteBlock t flagSet)] else []) ++
      [(t.swapInfoOff, byteBlock t (requested permanent).toUInt8)])

theorem setPending_unset {F : Type} [Flash F] {permanent : Bool} {s s₁ : F} {state : SwapState}
    (h : (readSwapState t : FlashM F SwapState) s = (.ok state, s₁)) (hmagic : state.magic = .unset) :
    (setPending t permanent : FlashM F Unit) s = writeAll (pendingWrites t permanent) s₁ := by
  unfold setPending
  rw [FlashM.bind_ok h]
  simp only [hmagic]
  cases permanent <;>
    simp [pendingWrites, writeAll, writeMagic, writeByte, magicBlock, byteBlock, requested, Trailer.padOff]

/-- The fields are erased. -/
def TrailerErased (bytes : Bytes) : Prop :=
  ∀ i n, t.swapInfoOff.toNat ≤ i → i + n ≤ t.slotSize.toNat → bytes.slice i n = List.replicate n erased

theorem magic_unset {bytes : Bytes} (herased : TrailerErased t bytes) :
    (stateOf t bytes).magic = .unset := by
  have hmagicOff := t.toNat_magicOff
  have hinfo := t.toNat_swapInfoOff
  have halign := t.align_cases
  have hmagicSize : magicSize = 16 := rfl
  simp only [stateOf, classifyMagic]
  rw [herased _ _ (by omega) (by omega), if_pos rfl]

theorem pendingWrites_block {permanent : Bool} {w : UInt32 × Bytes}
    (hw : w ∈ pendingWrites t permanent) : (w.1.toNat, w.2.length) ∈ t.blocks := by
  simp only [pendingWrites, List.mem_cons, List.mem_append] at hw
  rcases hw with rfl | hw | rfl | hw
  · simp [Trailer.blocks, length_magicBlock]
  · split_ifs at hw
    · rw [List.mem_singleton] at hw
      subst hw
      simp [Trailer.blocks, length_byteBlock]
    · cases hw
  · simp [Trailer.blocks, length_byteBlock]
  · cases hw

/-- The blocks lie apart, aligned and inside the slot, and from `swap_info` up. -/
theorem blocks_geometry :
    t.blocks.Pairwise (fun a b => b.1 + b.2 ≤ a.1) ∧
      ∀ b ∈ t.blocks, b.1 % t.align.toNat = 0 ∧ b.2 % t.align.toNat = 0 ∧
        t.swapInfoOff.toNat ≤ b.1 ∧ b.1 + b.2 ≤ t.slotSize.toNat := by
  have hpad := t.padOff_add
  have hok := t.toNat_imageOkOff
  have hdone := t.toNat_copyDoneOff
  have hinfo := t.toNat_swapInfoOff
  have hd := t.dvd_slotSize
  have halign := t.align_cases
  constructor
  · simp only [Trailer.blocks, List.pairwise_cons, List.mem_cons, List.not_mem_nil, or_false]
    refine ⟨?_, ?_, ?_, ?_, List.Pairwise.nil⟩
    · rintro b (rfl | rfl | rfl) <;> simp only <;> omega
    · rintro b (rfl | rfl) <;> simp only <;> omega
    · rintro b rfl
      simp only
      omega
    · intro b hb
      exact hb.elim
  · simp only [Trailer.blocks, List.mem_cons, List.not_mem_nil, or_false]
    rintro b (rfl | rfl | rfl | rfl) <;>
      rcases halign with ⟨ha, hs⟩ | ⟨ha, hs⟩ | ⟨ha, hs⟩ <;>
      rw [ha] at hok hdone hinfo hd <;> rw [hs] at hpad hok hdone hinfo <;> rw [ha] <;>
      refine ⟨?_, ?_, ?_, ?_⟩ <;> simp only [hs] <;> omega

theorem pendingWrites_apart (permanent : Bool) : (pendingWrites t permanent).Pairwise Apart := by
  have hpad := t.padOff_add
  have hok := t.toNat_imageOkOff
  have hinfo := t.toNat_swapInfoOff
  have halign := t.align_cases
  cases permanent <;>
    simp [pendingWrites, Apart, length_magicBlock, length_byteBlock] <;> omega

theorem mem_take_pendingWrites {permanent : Bool} {j : Nat} {w : UInt32 × Bytes}
    (hw : w ∈ (pendingWrites t permanent).take j) :
    w = (t.padOff, magicBlock t) ∨ w = (t.swapInfoOff, byteBlock t (requested permanent).toUInt8) ∨
      (permanent = true ∧ 2 ≤ j ∧ w = (t.imageOkOff, byteBlock t flagSet)) := by
  obtain ⟨i, hi, rfl⟩ := List.mem_take_iff_getElem.mp hw
  cases permanent
  · have hlt : i < 2 := lt_of_lt_of_le hi (Nat.min_le_right _ _)
    rcases i with - | - | i
    · exact .inl rfl
    · exact .inr (.inl rfl)
    · omega
  · have hlt : i < 3 := lt_of_lt_of_le hi (Nat.min_le_right _ _)
    rcases i with - | - | - | i
    · exact .inl rfl
    · exact .inr (.inr ⟨rfl, by omega, rfl⟩)
    · exact .inr (.inl rfl)
    · omega

/-- What is read after `j` of the writes. -/
theorem run_pendingWrites {F : Type} [Flash F] [Reliable F] {s : F}
    (herased : TrailerErased t (Device.bytes s)) (permanent : Bool) (j : Nat) :
    ∃ s', (writeAll ((pendingWrites t permanent).take j) : FlashM F Unit) s = (.ok (), s') ∧
      (stateOf t (Device.bytes s')).magic = (if j = 0 then .unset else .good) ∧
      (stateOf t (Device.bytes s')).imageOk =
        (if permanent = true ∧ 2 ≤ j then .set else .unset) ∧
      (∀ w ∈ (pendingWrites t permanent).take j,
        (Device.bytes s').slice w.1.toNat w.2.length = w.2) ∧
      ∀ i n, i + n ≤ t.swapInfoOff.toNat → (Device.bytes s').slice i n = (Device.bytes s).slice i n := by
  have hpad := t.padOff_add
  have hmagicOff := t.toNat_magicOff
  have hok := t.toNat_imageOkOff
  have hinfo := t.toNat_swapInfoOff
  have halign := t.align_cases
  have hmagicSize : magicSize = 16 := rfl
  have hsub : ((pendingWrites t permanent).take j).Sublist (pendingWrites t permanent) :=
    List.take_sublist j _
  obtain ⟨s', hrun, hblocks, hframe⟩ := run_writeAll ((pendingWrites_apart t permanent).sublist hsub) s
    fun w hw => by
      obtain ⟨-, -, hlow, hhigh⟩ := (blocks_geometry t).2 _ (pendingWrites_block t (hsub.subset hw))
      exact herased _ _ hlow hhigh
  refine ⟨s', hrun, ?_, ?_, hblocks, fun i n hi => hframe i n fun w hw => ?_⟩
  · cases j with
    | zero =>
      have hslice := hframe t.magicOff.toNat magicSize (by simp)
      rw [herased _ _ (by omega) (by omega)] at hslice
      simp only [stateOf, hslice, if_true, classifyMagic]
    | succ j =>
      have hblock := hblocks (t.padOff, magicBlock t) (by simp [pendingWrites])
      have hlength := length_magicBlock t
      have hmagic : (Device.bytes s').slice t.magicOff.toNat magicSize = t.magic := by
        have hinner := congrArg
          (fun b => Bytes.slice b ((magicAlignSize t.align).toNat - magicSize) magicSize) hblock
        simp only [Bytes.slice_slice (show (magicAlignSize t.align).toNat - magicSize + magicSize ≤
          (magicBlock t).length by omega)] at hinner
        rw [show t.magicOff.toNat = t.padOff.toNat + ((magicAlignSize t.align).toNat - magicSize) by omega,
          hinner, magicBlock, Bytes.slice_append_right (by simp), List.length_replicate, Nat.sub_self,
          Bytes.slice_of_length t.length_magic]
      simp only [stateOf, hmagic, classifyMagic_magic, Nat.add_eq_zero_iff, one_ne_zero, and_false,
        if_false]
  · by_cases hset : permanent = true ∧ 2 ≤ j
    · rw [if_pos hset]
      obtain ⟨rfl, hj⟩ := hset
      obtain ⟨k, rfl⟩ := Nat.exists_eq_add_of_le' hj
      have hblock := hblocks (t.imageOkOff, byteBlock t flagSet) (by simp [pendingWrites])
      have hfirst := congrArg (fun b => Bytes.slice b 0 1) hblock
      simp only [Bytes.slice_slice (show 0 + 1 ≤ (byteBlock t flagSet).length by
        rw [length_byteBlock]; omega), Nat.add_zero] at hfirst
      simp only [stateOf, hfirst]
      simp [byteBlock, classifyFlag, flagSet, erased]
    · rw [if_neg hset]
      have hslice := hframe t.imageOkOff.toNat 1 fun w hw => by
        rcases mem_take_pendingWrites t hw with rfl | rfl | ⟨hp, hj, -⟩
        · simp only
          omega
        · simp only [length_byteBlock]
          omega
        · exact absurd ⟨hp, hj⟩ hset
      rw [herased _ _ (by omega) (by omega)] at hslice
      simp only [stateOf, hslice]
      rfl
  · obtain ⟨-, -, hlow, -⟩ := (blocks_geometry t).2 _ (pendingWrites_block t (hsub.subset hw))
    exact .inl (hi.trans hlow)

/-- With the trailer's fields erased, the slot becomes pending and keeps what is below them. -/
theorem run_setPending_erased {F : Type} [Flash F] [Reliable F] {s : F}
    (herased : TrailerErased t (Device.bytes s)) (permanent : Bool) :
    ∃ s', (setPending t permanent : FlashM F Unit) s = (.ok (), s') ∧
      (stateOf t (Device.bytes s')).magic = .good ∧
      (Device.bytes s').slice t.swapInfoOff.toNat 1 = [(requested permanent).toUInt8] ∧
      ∀ i n, i + n ≤ t.swapInfoOff.toNat → (Device.bytes s').slice i n = (Device.bytes s).slice i n := by
  obtain ⟨s₁, hread, hbytes⟩ := readSwapState_total t s
  obtain ⟨s', hrun, hmagic, -, hblocks, hframe⟩ := run_pendingWrites t (s := s₁)
    (hbytes ▸ herased) permanent (pendingWrites t permanent).length
  rw [List.take_length] at hrun hblocks
  rw [if_neg (by cases permanent <;> simp [pendingWrites])] at hmagic
  rw [hbytes] at hframe
  refine ⟨s', ?_, hmagic, ?_, hframe⟩
  · rw [setPending_unset t hread (magic_unset t herased), hrun]
  · have hinfo := hblocks (t.swapInfoOff, byteBlock t (requested permanent).toUInt8)
      (by simp [pendingWrites])
    have hfirst := congrArg (fun b => Bytes.slice b 0 1) hinfo
    simp only [Bytes.slice_slice (show 0 + 1 ≤ (byteBlock t (requested permanent).toUInt8).length by
      rw [length_byteBlock]; have := t.align_cases; omega), Nat.add_zero] at hfirst
    rw [hfirst]
    rfl

end Pending

/-! ### Losing power -/

/-- Reads are those of the device inside. -/
def Lifts {G α : Type} (x : FlashM G α) (y : FlashM (Interrupted G) α) : Prop :=
  ∀ s k, y ⟨s, k⟩ = ((x s).1, ⟨(x s).2, k⟩)

theorem Lifts.bind {G α β : Type} {x : FlashM G α} {y : FlashM (Interrupted G) α} {f : α → FlashM G β}
    {g : α → FlashM (Interrupted G) β} (h : Lifts x y) (hf : ∀ a, Lifts (f a) (g a)) :
    Lifts (x >>= f) (y >>= g) := by
  intro s k
  have hy := h s k
  cases hx : x s with
  | mk r s₁ =>
    rw [hx] at hy
    cases r with
    | error e => rw [FlashM.bind_error hx, FlashM.bind_error hy]
    | ok a => rw [FlashM.bind_ok hx, FlashM.bind_ok hy, hf a s₁ k]

end Bristlemouth.Mcuboot
