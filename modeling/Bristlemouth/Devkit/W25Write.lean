import Bristlemouth.Devkit.W25
import Bristlemouth.Wire.Le

/-!
# A write to the part is a write to its memory

What each call over the bus does when it succeeds, up to `W25::write`: the bytes are stored, the rest of
the memory is as it was, and only sectors with bytes of the range were erased or programmed. A part that
answers in time over a bus that does not fail makes it succeed.
-/

set_option autoImplicit false

namespace Bristlemouth.W25

variable {c c' : Chip} {addr : UInt32}

/-! ### Calls that succeed -/

theorem transaction_ok {ops : List Operation} {cmd : UInt8} {args data : Bytes}
    (hops : Operation.written ops = cmd :: args) (h : transaction ops c = (.ok data, c')) :
    c.carried.command cmd args (Operation.wanted ops) = (data, c') := by
  unfold transaction at h
  cases hfault : c.faults.headD none with
  | some kind =>
    rw [hfault] at h
    cases h
  | none =>
    rw [hfault] at h
    simp only [hops] at h
    cases h
    rfl

/-- A successful call that only looked: the memory is as it was, and nothing was begun. -/
structure Kept (c c' : Chip) : Prop where
  mem : c'.mem = c.mem
  touched : c'.touched = c.touched
  busy : c'.busy ≤ c.busy

theorem Kept.refl (c : Chip) : Kept c c := ⟨rfl, rfl, Nat.le_refl _⟩

theorem Kept.trans {a b c : Chip} (h : Kept a b) (h' : Kept b c) : Kept a c :=
  ⟨h'.mem.trans h.mem, h'.touched.trans h.touched, h'.busy.trans h.busy⟩

theorem kept_carried (c : Chip) : Kept c c.carried := ⟨rfl, rfl, Nat.le_refl _⟩

theorem status_busy (c : Chip) : (c.status &&& sr1Busy ≠ 0) ↔ 0 < c.busy := by
  unfold Chip.status
  by_cases h : 0 < c.busy
  · rw [if_pos h]
    exact iff_of_true (by cases c.wel <;> decide) h
  · rw [if_neg h]
    exact iff_of_false (by cases c.wel <;> decide) h

theorem status_wel (c : Chip) : (c.status &&& sr1Wel ≠ 0) ↔ c.wel = true := by
  unfold Chip.status
  cases c.wel with
  | true => exact iff_of_true (by split <;> decide) rfl
  | false => exact iff_of_false (by split <;> decide) Bool.false_ne_true

theorem status_ok {sr : UInt8} (h : status c = (.ok sr, c')) : Kept c c' ∧ sr = c'.status := by
  unfold status at h
  obtain ⟨data, c₁, hread, hret⟩ := BusM.bind_eq_ok.mp h
  have hcmd := transaction_ok rfl hread
  cases hret
  rw [Chip.command_status] at hcmd
  cases hcmd
  exact ⟨⟨rfl, rfl, Nat.sub_le _ _⟩, rfl⟩

theorem polls_ok {mask : UInt8} {set : Bool} (n : Nat) : ∀ {c : Chip},
    polls mask set n c = (.ok (), c') → Kept c c' ∧ decide (c'.status &&& mask ≠ 0) = set := by
  induction n with
  | zero =>
    intro c h
    cases h
  | succ n ih =>
    intro c h
    obtain ⟨sr, c₁, hstatus, hrest⟩ := BusM.bind_eq_ok.mp h
    obtain ⟨hkept, rfl⟩ := status_ok hstatus
    by_cases hset : decide (c₁.status &&& mask ≠ 0) = set
    · rw [if_pos hset] at hrest
      cases hrest
      exact ⟨hkept, hset⟩
    · rw [if_neg hset] at hrest
      obtain ⟨hkept', hset'⟩ := ih hrest
      exact ⟨hkept.trans hkept', hset'⟩

theorem wait_busy_ok {ms : Nat} (h : wait sr1Busy false ms c = (.ok (), c')) : Kept c c' ∧ c'.busy = 0 := by
  obtain ⟨hkept, hset⟩ := polls_ok _ h
  have hnot := of_decide_eq_false hset
  rw [status_busy] at hnot
  exact ⟨hkept, by omega⟩

theorem wait_wel_ok {ms : Nat} (h : wait sr1Wel true ms c = (.ok (), c')) : Kept c c' ∧ c'.wel = true := by
  obtain ⟨hkept, hset⟩ := polls_ok _ h
  exact ⟨hkept, (status_wel c').mp (of_decide_eq_true hset)⟩

theorem command_enable_ok (hidle : c.busy = 0) (h : command writeEnable c = (.ok (), c')) : Kept c c' := by
  unfold command at h
  obtain ⟨data, c₁, hwrite, hret⟩ := BusM.bind_eq_ok.mp h
  have hcmd := transaction_ok rfl hwrite
  cases hret
  rw [Chip.command_enable _ _ (by exact hidle)] at hcmd
  cases hcmd
  exact ⟨rfl, rfl, Nat.le_refl _⟩

/-- The bytes of an address in a command, of which the first is left out. -/
def addrBytes (addr : UInt32) : Bytes := (Bytes.beBytes 4 addr.toNat).drop 1

@[simp] theorem length_addrBytes (addr : UInt32) : (addrBytes addr).length = 3 := by simp [addrBytes]

theorem beNat_addrBytes (haddr : addr.toNat < 2 ^ 24) (rest : Bytes) :
    Bytes.beNat ((addrBytes addr ++ rest).take 3) = addr.toNat := by
  have hlow : addrBytes addr = Bytes.beBytes 3 addr.toNat := rfl
  rw [List.take_append_of_le_length (length_addrBytes addr).ge,
    List.take_of_length_le (length_addrBytes addr).le, hlow, Bytes.beNat_beBytes, Nat.mod_eq_of_lt (by omega)]

theorem drop_addrBytes (addr : UInt32) (rest : Bytes) : (addrBytes addr ++ rest).drop 3 = rest := by
  rw [List.drop_append_of_le_length (length_addrBytes addr).ge,
    List.drop_of_length_le (length_addrBytes addr).le, List.nil_append]

theorem written_header (cmd : UInt8) (addr : UInt32) (rest : List Operation) :
    Operation.written (.write (header cmd addr) :: rest)
      = cmd :: (addrBytes addr ++ Operation.written rest) := rfl

theorem busRead_ok {len : Nat} {data : Bytes} (haddr : addr.toNat < 2 ^ 24)
    (h : busRead addr len c = (.ok data, c')) : Kept c c' ∧ data = c.mem.read addr.toNat len := by
  unfold busRead at h
  obtain ⟨_, c₁, hwait, hread⟩ := BusM.bind_eq_ok.mp h
  obtain ⟨hkept, hidle⟩ := wait_busy_ok hwait
  have hcmd := transaction_ok (written_header _ _ _) hread
  rw [Chip.command_read _ _ (by exact hidle), beNat_addrBytes haddr] at hcmd
  cases hcmd
  exact ⟨hkept.trans (kept_carried c₁), congrArg (NorMemory.read · _ _) hkept.mem⟩

/-- A successful call that erased or programmed at `addr`. -/
structure Began (c c' : Chip) (addr : Nat) (mem : NorMemory) : Prop where
  mem : c'.mem = mem
  touched : c'.touched = c.touched ++ [addr]

/-- The command in between, when the part is idle and its write enable latch set. -/
theorem began_of_kept {c₁ c₂ : Chip} {a n : Nat} {mem : NorMemory} (h : Kept c c₁)
    (h' : Kept (c₁.begin a mem n) c₂) : Began c c₂ a mem :=
  ⟨h'.mem, h'.touched.trans (congrArg (· ++ [a]) h.touched)⟩

/-- The three calls before an erase or a program leave the part idle with its latch set. -/
theorem ready_ok {c₁ c₂ : Chip} {ms ms' : Nat} (hwait : wait sr1Busy false ms c = (.ok (), c₁))
    (henable : command writeEnable c₁ = (.ok (), c₂)) (hlatch : wait sr1Wel true ms' c₂ = (.ok (), c')) :
    Kept c c' ∧ c'.busy = 0 ∧ c'.wel = true := by
  obtain ⟨hkept₁, hidle⟩ := wait_busy_ok hwait
  have hkept₂ := command_enable_ok hidle henable
  obtain ⟨hkept₃, hwel⟩ := wait_wel_ok hlatch
  have hbusy := hkept₃.busy.trans hkept₂.busy
  exact ⟨(hkept₁.trans hkept₂).trans hkept₃, by omega, hwel⟩

theorem eraseSector_ok (haddr : addr.toNat < 2 ^ 24) (h : eraseSector addr c = (.ok (), c')) :
    Began c c' addr.toNat (c.mem.erase sectorSize addr.toNat) := by
  unfold eraseSector at h
  obtain ⟨_, c₁, hwait, h⟩ := BusM.bind_eq_ok.mp h
  obtain ⟨_, c₂, henable, h⟩ := BusM.bind_eq_ok.mp h
  obtain ⟨_, c₃, hlatch, h⟩ := BusM.bind_eq_ok.mp h
  obtain ⟨_, c₄, herase, h⟩ := BusM.bind_eq_ok.mp h
  obtain ⟨hall, hidle₃, hwel⟩ := ready_ok hwait henable hlatch
  have hcmd := transaction_ok (written_header _ _ _) herase
  rw [Chip.command_erase _ _ (by exact hidle₃) (by exact hwel), beNat_addrBytes haddr] at hcmd
  cases hcmd
  have hready : Kept c { c₃.carried with eraseFor := c₃.carried.eraseFor.tail } := ⟨hall.mem, hall.touched, hall.busy⟩
  have hbegan := began_of_kept hready (polls_ok _ h).1
  rw [show c₃.carried.mem = c.mem from hall.mem] at hbegan
  exact hbegan

theorem programPage_ok {page : Bytes} (haddr : addr.toNat < 2 ^ 24)
    (h : programPage addr page c = (.ok (), c')) :
    Began c c' addr.toNat (c.mem.program pageSize addr.toNat page) := by
  unfold programPage at h
  obtain ⟨_, c₁, hwait, h⟩ := BusM.bind_eq_ok.mp h
  obtain ⟨_, c₂, henable, h⟩ := BusM.bind_eq_ok.mp h
  obtain ⟨_, c₃, hlatch, h⟩ := BusM.bind_eq_ok.mp h
  obtain ⟨_, c₄, hprogram, h⟩ := BusM.bind_eq_ok.mp h
  obtain ⟨hall, hidle₃, hwel⟩ := ready_ok hwait henable hlatch
  have hcmd := transaction_ok (written_header _ _ _) hprogram
  rw [Chip.command_program _ _ (by exact hidle₃) (by exact hwel), beNat_addrBytes haddr, drop_addrBytes,
    show Operation.written [.write page] = page from List.append_nil page] at hcmd
  cases hcmd
  have hready : Kept c { c₃.carried with programFor := c₃.carried.programFor.tail } :=
    ⟨hall.mem, hall.touched, hall.busy⟩
  have hbegan := began_of_kept hready (polls_ok _ h).1
  rw [show c₃.carried.mem = c.mem from hall.mem] at hbegan
  exact hbegan

/-! ### Sectors -/

/-- The stretch of memory from `lo` to `hi`, of which only parts were erased or programmed. -/
structure Stored (c c' : Chip) (lo hi : Nat) (mem : NorMemory) : Prop where
  mem : c'.mem = mem
  touched : ∃ more, c'.touched = c.touched ++ more ∧ ∀ t ∈ more, lo ≤ t ∧ t < hi

theorem programPages_ok {base : UInt32} (pages : List Bytes) : ∀ {i : Nat} {c : Chip},
    base.toNat + (i + pages.length) * pageSize < 2 ^ 24 → programPages base i pages c = (.ok (), c') →
    Stored c c' (base.toNat + i * pageSize) (base.toNat + (i + pages.length) * pageSize)
      (NorMemory.programAll pageSize (base.toNat + i * pageSize) pages c.mem) := by
  induction pages with
  | nil =>
    intro i c _ h
    cases h
    exact ⟨rfl, [], (List.append_nil _).symm, fun t ht => absurd ht List.not_mem_nil⟩
  | cons page pages ih =>
    intro i c hroom h
    obtain ⟨_, c₁, hpage, hrest⟩ := BusM.bind_eq_ok.mp h
    rw [List.length_cons] at hroom ⊢
    have hfirst : i * pageSize = i * 256 := rfl
    have hsecond : (i + 1) * pageSize = (i + 1) * 256 := rfl
    have hlast : (i + (pages.length + 1)) * pageSize = (i + (pages.length + 1)) * 256 := rfl
    have hcount : i + 1 + pages.length = i + (pages.length + 1) := by omega
    have haddr : (base + UInt32.ofNat (i * pageSize)).toNat = base.toNat + i * pageSize := by
      rw [UInt32.toNat_add, UInt32.toNat_ofNat']
      omega
    have hbegan := programPage_ok (by omega) hpage
    obtain ⟨hmem, more, htouched, hin⟩ := ih (by rw [hcount]; exact hroom) hrest
    rw [hcount] at hin
    refine ⟨?_, (base.toNat + i * pageSize) :: more, ?_, ?_⟩
    · rw [hmem, hbegan.mem, haddr, NorMemory.programAll, Nat.succ_mul, ← Nat.add_assoc]
    · rw [htouched, hbegan.touched, haddr, List.append_assoc]
      rfl
    · intro t ht
      rcases List.mem_cons.mp ht with rfl | ht
      · omega
      · have hbounds := hin t ht
        omega

/-- One turn of the loop stores its part of the data, and works in that one sector. -/
theorem writeSector_ok {data sector : Bytes} (hroom : addr.toNat + data.length < maxAddress)
    (h : writeSector addr data c = (.ok sector, c')) :
    Stored c c' (addr.toNat / sectorSize * sectorSize) (addr.toNat / sectorSize * sectorSize + sectorSize)
      (c.mem.overwrite addr.toNat (data.take (sectorPart addr data))) := by
  have hsector : sectorSize = 4096 := rfl
  have hpage : pageSize = 256 := rfl
  have hmax : maxAddress = 0x7FFFFF := rfl
  have hmod : (addr % UInt32.ofNat sectorSize).toNat = addr.toNat % sectorSize := UInt32.toNat_mod ..
  have hdiv := Nat.div_add_mod' addr.toNat sectorSize
  have hbase : (addr - addr % UInt32.ofNat sectorSize).toNat = addr.toNat / sectorSize * sectorSize := by
    rw [toNat_sub_of_toNat_le (by rw [hmod]; exact Nat.mod_le _ _), hmod]
    omega
  have hstart : (addr - (addr - addr % UInt32.ofNat sectorSize)).toNat = addr.toNat % sectorSize := by
    rw [toNat_sub_of_toNat_le (by rw [hbase]; exact Nat.div_mul_le_self _ _), hbase]
    omega
  have hpart : min data.length (sectorSize - addr.toNat % sectorSize) = sectorPart addr data := by
    rw [sectorPart, hmod]
  have hle := Nat.div_mul_le_self addr.toNat sectorSize
  have hfit : addr.toNat % sectorSize + (data.take (sectorPart addr data)).length ≤ sectorSize := by
    rw [List.length_take, ← hpart]
    have hlt := Nat.mod_lt addr.toNat (by decide : 0 < sectorSize)
    omega
  unfold writeSector at h
  simp only [hstart, hpart] at h
  obtain ⟨old, c₁, hread, h⟩ := BusM.bind_eq_ok.mp h
  obtain ⟨_, c₂, herase, h⟩ := BusM.bind_eq_ok.mp h
  obtain ⟨_, c₃, hprogram, hret⟩ := BusM.bind_eq_ok.mp h
  obtain ⟨hkept, hold⟩ := busRead_ok (by omega) hread
  rw [hold] at hprogram
  have herased := eraseSector_ok (by omega) herase
  have hlen : ((c.mem.read (addr - addr % UInt32.ofNat sectorSize).toNat sectorSize).copyAt
      (addr.toNat % sectorSize) (data.take (sectorPart addr data))).length = sectorSize := by
    rw [Bytes.length_copyAt _ _ _ (by rw [NorMemory.length_read]; exact hfit), NorMemory.length_read]
  have hpages : sectorSize = pageSize * 16 := by decide
  have hflat := Bytes.flatten_chunks (by decide) (hlen.trans hpages)
  have hcount : (Bytes.chunks pageSize ((c.mem.read (addr - addr % UInt32.ofNat sectorSize).toNat sectorSize).copyAt
      (addr.toNat % sectorSize) (data.take (sectorPart addr data)))).length = 16 := by
    rw [Bytes.chunks, List.length_map, List.length_range, hlen]
    decide
  obtain ⟨hmem, more, htouched, hin⟩ := programPages_ok _ (by rw [hcount]; omega) hprogram
  cases hret
  refine ⟨?_, addr.toNat / sectorSize * sectorSize :: more, ?_, ?_⟩
  · rw [hmem, herased.mem, hkept.mem, Nat.zero_mul, Nat.add_zero,
      NorMemory.programAll_erase (by decide) (by decide) (by rw [hbase]; exact Nat.mul_mod_left _ _)
        (by decide) (fun page => Bytes.length_of_mem_chunks) (by rw [hflat, hlen]),
      hflat, NorMemory.overwrite_patched hfit, hbase, hdiv]
  · rw [htouched, herased.touched, hkept.touched, hbase, List.append_assoc]
    rfl
  · intro t ht
    rcases List.mem_cons.mp ht with rfl | ht
    · omega
    · have hbounds := hin t ht
      rw [hcount, hbase] at hbounds
      omega

/-- The sector of `t` has bytes of the range. -/
def Overlaps (t addr len : Nat) : Prop := ∃ a, addr ≤ a ∧ a < addr + len ∧ a / sectorSize = t / sectorSize

/-- The loop stores all of the data. -/
theorem writeLoop_ok (data : Bytes) : ∀ {addr : UInt32} {sector sector' : Bytes} {c : Chip},
    addr.toNat + data.length < maxAddress → writeLoop addr data sector c = (.ok sector', c') →
    c'.mem = c.mem.overwrite addr.toNat data ∧ ∃ more, c'.touched = c.touched ++ more ∧
      ∀ t ∈ more, Overlaps t addr.toNat data.length := by
  induction hlen : data.length using Nat.strong_induction_on generalizing data with
  | h n ih =>
    intro addr sector sector' c hroom h
    subst hlen
    have hmax : maxAddress = 0x7FFFFF := rfl
    rw [writeLoop] at h
    by_cases hnil : data = []
    · rw [dif_pos hnil] at h
      cases h
      refine ⟨?_, [], (List.append_nil _).symm, fun t ht => absurd ht List.not_mem_nil⟩
      funext a
      rw [hnil, NorMemory.overwrite, List.length_nil, if_neg (by omega)]
    · rw [dif_neg hnil] at h
      obtain ⟨sector₁, c₁, hsector, hrest⟩ := BusM.bind_eq_ok.mp h
      have hpos := sectorPart_pos addr hnil
      have hpart : sectorPart addr data ≤ data.length := Nat.min_le_left _ _
      obtain ⟨hmem, more, htouched, hin⟩ := writeSector_ok hroom hsector
      have hnext : (addr + UInt32.ofNat (sectorPart addr data)).toNat = addr.toNat + sectorPart addr data := by
        rw [UInt32.toNat_add, UInt32.toNat_ofNat']
        omega
      have hdrop : (data.drop (sectorPart addr data)).length = data.length - sectorPart addr data :=
        List.length_drop
      have htake : (data.take (sectorPart addr data)).length = sectorPart addr data :=
        List.length_take_of_le hpart
      obtain ⟨hmem', more', htouched', hin'⟩ := ih (data.drop (sectorPart addr data)).length (by omega)
        (data.drop (sectorPart addr data)) rfl (by rw [hnext, hdrop]; omega) hrest
      refine ⟨?_, more ++ more', by rw [htouched', htouched, List.append_assoc], ?_⟩
      · have happend := @NorMemory.overwrite_append addr.toNat c.mem (data.take (sectorPart addr data))
          (data.drop (sectorPart addr data))
        rw [List.take_append_drop, htake] at happend
        rw [hmem', hmem, hnext, happend]
      · intro t ht
        rcases List.mem_append.mp ht with ht | ht
        · obtain ⟨hlow, hhigh⟩ := hin t ht
          refine ⟨addr.toNat, Nat.le_refl _, by omega, ?_⟩
          rw [eq_comm, Nat.div_eq_iff (by decide)]
          omega
        · obtain ⟨a, hlow, hhigh, hsame⟩ := hin' t ht
          rw [hnext] at hlow hhigh
          rw [hdrop] at hhigh
          exact ⟨a, by omega, by omega, hsame⟩

/-! ### A bus and a part that do their work -/

/-- The status reads of the wait for a program, and of that for an erase. -/
def writePolls : Nat := writeTimeoutMs * 1000 / pollUs + 1

def erasePolls : Nat := sectorEraseTimeoutMs * 1000 / pollUs + 1

/-- No transfer to come fails, and no erase or program to come takes longer than is waited for it. -/
structure Willing (c : Chip) : Prop where
  faults : ∀ fault ∈ c.faults, fault = none
  eraseFor : ∀ n ∈ c.eraseFor, n ≤ erasePolls
  programFor : ∀ n ∈ c.programFor, n ≤ writePolls

/-- Nor does what is going on take longer than the first wait. -/
structure Prompt (c : Chip) : Prop extends Willing c where
  busy : c.busy ≤ writePolls

/-- The call succeeds from `c`, with a result and in a state as said. -/
def Succeeds {α : Type} (x : BusM α) (c : Chip) (Q : α → Chip → Prop) : Prop :=
  ∃ a c', x c = (.ok a, c') ∧ Q a c'

theorem Succeeds.bind {α β : Type} {x : BusM α} {f : α → BusM β} {Q : α → Chip → Prop} {R : β → Chip → Prop}
    (hx : Succeeds x c Q) (hf : ∀ a c', Q a c' → Succeeds (f a) c' R) : Succeeds (x >>= f) c R := by
  obtain ⟨a, c₁, hx, hq⟩ := hx
  obtain ⟨b, c₂, hf, hr⟩ := hf a c₁ hq
  exact ⟨b, c₂, BusM.bind_eq_ok.mpr ⟨a, c₁, hx, hf⟩, hr⟩

theorem Succeeds.pure {α : Type} {a : α} {Q : α → Chip → Prop} (h : Q a c) : Succeeds (Pure.pure a) c Q :=
  ⟨a, c, rfl, h⟩

theorem Willing.prompt (h : Willing c) (hidle : c.busy = 0) : Prompt c := ⟨h, by omega⟩

theorem Willing.carried (h : Willing c) : Willing c.carried where
  faults fault hmem := h.faults fault (List.mem_of_mem_tail hmem)
  eraseFor := h.eraseFor
  programFor := h.programFor

theorem headD_le {l : List Nat} {bound : Nat} (h : ∀ n ∈ l, n ≤ bound) : l.headD 0 ≤ bound := by
  cases l with
  | nil => exact Nat.zero_le bound
  | cons n rest => exact h n List.mem_cons_self

theorem Willing.beginErase (h : Willing c) (a : Nat) :
    Willing (c.beginErase a) ∧ (c.beginErase a).busy ≤ erasePolls :=
  ⟨⟨h.faults, fun n hn => h.eraseFor n (List.mem_of_mem_tail hn), h.programFor⟩, headD_le h.eraseFor⟩

theorem Willing.beginProgram (h : Willing c) (a : Nat) (page : Bytes) :
    Willing (c.beginProgram a page) ∧ (c.beginProgram a page).busy ≤ writePolls :=
  ⟨⟨h.faults, h.eraseFor, fun n hn => h.programFor n (List.mem_of_mem_tail hn)⟩, headD_le h.programFor⟩

theorem transaction_succeeds (h : Willing c) {ops : List Operation} {cmd : UInt8} {args : Bytes}
    (hops : Operation.written ops = cmd :: args) :
    transaction ops c = (.ok (c.carried.command cmd args (Operation.wanted ops)).1,
      (c.carried.command cmd args (Operation.wanted ops)).2) := by
  have hfault : c.faults.headD none = none := by
    cases hfaults : c.faults with
    | nil => rfl
    | cons fault rest => exact h.faults fault (hfaults ▸ List.mem_cons_self)
  unfold transaction
  rw [hfault]
  simp only [hops]

theorem status_succeeds (h : Willing c) : Succeeds status c fun sr c' => Willing c' ∧ sr = c'.status ∧
    c'.busy = c.busy - 1 ∧ c'.wel = (c.wel && c.busy ≠ 1) := by
  have hread := @transaction_succeeds _ h [.write [readStatus1], .read 1] _ _ rfl
  rw [Chip.command_status] at hread
  exact ⟨_, _, BusM.bind_eq_ok.mpr ⟨_, _, hread, rfl⟩,
    ⟨h.carried.faults, h.carried.eraseFor, h.carried.programFor⟩, rfl, rfl, rfl⟩

theorem wait_busy_succeeds (n : Nat) : ∀ {c : Chip}, Willing c → c.busy ≤ n + 1 →
    Succeeds (polls sr1Busy false (n + 1)) c fun _ c' => Willing c' ∧ c'.busy = 0 := by
  induction n with
  | zero =>
    intro c h hbusy
    refine (status_succeeds h).bind fun sr c' ⟨hwilling, hsr, hbusy', _⟩ => ?_
    have hidle : c'.busy = 0 := by omega
    rw [hsr, if_pos (decide_eq_false fun hset => by rw [status_busy] at hset; omega)]
    exact .pure ⟨hwilling, hidle⟩
  | succ n ih =>
    intro c h hbusy
    refine (status_succeeds h).bind fun sr c' ⟨hwilling, hsr, hbusy', _⟩ => ?_
    by_cases hidle : c'.busy = 0
    · rw [hsr, if_pos (decide_eq_false fun hset => by rw [status_busy] at hset; omega)]
      exact .pure ⟨hwilling, hidle⟩
    · have hset : decide (c'.status &&& sr1Busy ≠ 0) = true :=
        decide_eq_true ((status_busy c').mpr (Nat.pos_of_ne_zero hidle))
      rw [hsr, hset, if_neg (by decide)]
      exact ih hwilling (by omega)

theorem wait_wel_succeeds (n : Nat) (h : Willing c) (hidle : c.busy = 0) (hwel : c.wel = true) :
    Succeeds (polls sr1Wel true (n + 1)) c fun _ c' => Willing c' ∧ c'.busy = 0 ∧ c'.wel = true := by
  refine (status_succeeds h).bind fun sr c' ⟨hwilling, hsr, hbusy', hwel'⟩ => ?_
  have hkept : c'.wel = true := by rw [hwel', hwel, hidle]; rfl
  rw [hsr, if_pos (decide_eq_true ((status_wel c').mpr hkept))]
  exact .pure ⟨hwilling, by omega, hkept⟩

/-- The latch goes with the end of the operation, so the wait for the one is the wait for the other. -/
theorem wait_done_succeeds (n : Nat) : ∀ {c : Chip}, Willing c → c.busy ≤ n + 1 → c.wel = decide (0 < c.busy) →
    Succeeds (polls sr1Wel false (n + 1)) c fun _ c' => Willing c' ∧ c'.busy = 0 := by
  have hlatched : ∀ {b b' : Nat} {w w' : Bool}, w = decide (0 < b) → b' = b - 1 → w' = (w && b ≠ 1) →
      w' = decide (0 < b') := by
    intro b b' w w' hw hb' hw'
    rw [hw', hw, hb', ← Bool.decide_and, decide_eq_decide]
    omega
  have hended : ∀ {c : Chip}, c.wel = decide (0 < c.busy) → c.busy = 0 →
      decide (c.status &&& sr1Wel ≠ 0) = false := by
    intro c hwel hidle
    refine decide_eq_false fun hset => ?_
    rw [status_wel, hwel, decide_eq_true_eq] at hset
    omega
  induction n with
  | zero =>
    intro c h hbusy hwel
    refine (status_succeeds h).bind fun sr c' ⟨hwilling, hsr, hbusy', hwel'⟩ => ?_
    have hidle : c'.busy = 0 := by omega
    rw [hsr, if_pos (hended (hlatched hwel hbusy' hwel') hidle)]
    exact .pure ⟨hwilling, hidle⟩
  | succ n ih =>
    intro c h hbusy hwel
    refine (status_succeeds h).bind fun sr c' ⟨hwilling, hsr, hbusy', hwel'⟩ => ?_
    by_cases hidle : c'.busy = 0
    · rw [hsr, if_pos (hended (hlatched hwel hbusy' hwel') hidle)]
      exact .pure ⟨hwilling, hidle⟩
    · have hset : decide (c'.status &&& sr1Wel ≠ 0) = true := by
        rw [decide_eq_true_eq, status_wel, hlatched hwel hbusy' hwel', decide_eq_true_eq]
        exact Nat.pos_of_ne_zero hidle
      rw [hsr, hset, if_neg (by decide)]
      exact ih hwilling (by omega) (hlatched hwel hbusy' hwel')

theorem busRead_succeeds (h : Prompt c) (addr : UInt32) (len : Nat) :
    Succeeds (busRead addr len) c fun _ c' => Prompt c' := by
  refine (wait_busy_succeeds _ h.toWilling h.busy).bind fun _ c₁ ⟨hwilling, hidle⟩ => ?_
  have hread := transaction_succeeds hwilling (written_header readData addr [.read len])
  rw [Chip.command_read _ _ (by exact hidle)] at hread
  exact ⟨_, _, hread, hwilling.carried.prompt hidle⟩

/-- An erase or a program: the three calls before the command, the command, and the wait for its end. -/
theorem begins_succeeds (h : Prompt c) {ops : List Operation} {polled : Nat}
    (hops : ∀ c₁ : Chip, Willing c₁ → c₁.busy = 0 → c₁.wel = true → Succeeds (transaction ops) c₁ fun _ c₂ =>
      Willing c₂ ∧ c₂.busy ≤ polled + 1 ∧ c₂.wel = decide (0 < c₂.busy)) :
    Succeeds (do
      wait sr1Busy false writeTimeoutMs
      command writeEnable
      wait sr1Wel true writeTimeoutMs
      let _ ← transaction ops
      polls sr1Wel false (polled + 1)) c fun _ c' => Prompt c' := by
  refine (wait_busy_succeeds _ h.toWilling h.busy).bind fun _ c₁ ⟨hwilling, hidle⟩ => ?_
  have henable := @transaction_succeeds _ hwilling [.write [writeEnable]] _ _ rfl
  rw [Chip.command_enable _ _ (by exact hidle)] at henable
  have hcommand : Succeeds (command writeEnable) c₁ fun _ c₂ => Willing c₂ ∧ c₂.busy = 0 ∧ c₂.wel = true :=
    ⟨(), _, BusM.bind_eq_ok.mpr ⟨_, _, henable, rfl⟩,
      ⟨hwilling.carried.faults, hwilling.carried.eraseFor, hwilling.carried.programFor⟩, hidle, rfl⟩
  refine hcommand.bind fun _ c₂ ⟨hwilling₂, hidle₂, hwel₂⟩ => ?_
  refine (wait_wel_succeeds _ hwilling₂ hidle₂ hwel₂).bind fun _ c₃ ⟨hwilling₃, hidle₃, hwel₃⟩ => ?_
  refine (hops c₃ hwilling₃ hidle₃ hwel₃).bind fun _ c₄ ⟨hwilling₄, hbusy₄, hwel₄⟩ => ?_
  obtain ⟨u, c₅, hdone, hwilling₅, hidle₅⟩ := wait_done_succeeds _ hwilling₄ hbusy₄ hwel₄
  exact ⟨u, c₅, hdone, hwilling₅.prompt hidle₅⟩

theorem eraseSector_succeeds (h : Prompt c) (addr : UInt32) :
    Succeeds (eraseSector addr) c fun _ c' => Prompt c' := by
  refine begins_succeeds h fun c₁ hwilling hidle hwel => ?_
  have herase := transaction_succeeds hwilling (written_header sectorErase addr [])
  rw [Chip.command_erase _ _ (by exact hidle) (by exact hwel)] at herase
  obtain ⟨hwilling₂, hbusy₂⟩ := hwilling.carried.beginErase _
  exact ⟨_, _, herase, hwilling₂, hbusy₂, rfl⟩

theorem programPage_succeeds (h : Prompt c) (addr : UInt32) (page : Bytes) :
    Succeeds (programPage addr page) c fun _ c' => Prompt c' := by
  refine begins_succeeds h fun c₁ hwilling hidle hwel => ?_
  have hprogram := transaction_succeeds hwilling (written_header pageProgram addr [.write page])
  rw [Chip.command_program _ _ (by exact hidle) (by exact hwel)] at hprogram
  obtain ⟨hwilling₂, hbusy₂⟩ := hwilling.carried.beginProgram _ _
  exact ⟨_, _, hprogram, hwilling₂, hbusy₂, rfl⟩

theorem programPages_succeeds (base : UInt32) (pages : List Bytes) : ∀ (i : Nat) {c : Chip}, Prompt c →
    Succeeds (programPages base i pages) c fun _ c' => Prompt c' := by
  induction pages with
  | nil => exact fun i c h => .pure h
  | cons page pages ih =>
    intro i c h
    exact (programPage_succeeds h _ page).bind fun _ c' hprompt => ih (i + 1) hprompt

theorem writeSector_succeeds (h : Prompt c) (addr : UInt32) (data : Bytes) :
    Succeeds (writeSector addr data) c fun _ c' => Prompt c' := by
  refine (busRead_succeeds h _ _).bind fun sector c₁ h₁ => ?_
  refine (eraseSector_succeeds h₁ _).bind fun _ c₂ h₂ => ?_
  exact (programPages_succeeds _ _ 0 h₂).bind fun _ c₃ h₃ => .pure h₃

theorem writeLoop_succeeds (data : Bytes) : ∀ (addr : UInt32) (sector : Bytes) {c : Chip}, Prompt c →
    Succeeds (writeLoop addr data sector) c fun _ c' => Prompt c' := by
  induction hlen : data.length using Nat.strong_induction_on generalizing data with
  | h n ih =>
    intro addr sector c h
    subst hlen
    rw [writeLoop]
    by_cases hnil : data = []
    · rw [dif_pos hnil]
      exact .pure h
    · rw [dif_neg hnil]
      have hpos := sectorPart_pos addr hnil
      have hsome := List.length_pos_of_ne_nil hnil
      refine (writeSector_succeeds h addr data).bind fun sector₁ c₁ h₁ => ?_
      exact ih _ (by rw [List.length_drop]; omega) _ rfl _ _ h₁

/-- A write that the range check lets through: when it succeeds it has stored the data, left every other
byte and worked in overlapping sectors only, and on a bus without faults and a part in time it succeeds. -/
theorem write_is_overwrite {data : Bytes} (hrange : checkRange addr data.length = .ok ()) (sector : Bytes)
    (c : Chip) :
    (∀ sector' c', write addr data sector c = (.ok sector', c') →
      c'.mem = c.mem.overwrite addr.toNat data ∧ ∃ more, c'.touched = c.touched ++ more ∧
        ∀ t ∈ more, Overlaps t addr.toNat data.length) ∧
    (Prompt c → ∃ sector' c', write addr data sector c = (.ok sector', c')) := by
  have hroom : addr.toNat + data.length < maxAddress := by
    unfold checkRange at hrange
    split at hrange
    · rename_i h
      exact h.2.2
    · cases hrange
  have hwrite : write addr data sector = writeLoop addr data sector := by
    unfold write
    rw [hrange]
  rw [hwrite]
  constructor
  · intro sector' c' h
    exact writeLoop_ok data hroom h
  · intro h
    obtain ⟨sector', c', hok, -⟩ := writeLoop_succeeds data addr sector h
    exact ⟨sector', c', hok⟩

/-- An erased part that is busy, and takes its time over the erases and some of the programs to come. -/
def busyPart : Chip := ⟨fun _ => 0xFF, false, 1501, [], [40001, 4500], [1501, 0, 70], []⟩

/-- Five bytes across the border of two sectors. -/
theorem write_is_overwrite_border : ∃ sector' c', write 4094 [1, 2, 3, 4, 5] [] busyPart = (.ok sector', c') ∧
    [4093, 4094, 4095, 4096, 4097, 4098, 4099].map c'.mem = [0xFF, 1, 2, 3, 4, 5, 0xFF] ∧
    ∀ t ∈ c'.touched, Overlaps t 4094 5 := by
  obtain ⟨hstores, hsucceeds⟩ := @write_is_overwrite 4094 [1, 2, 3, 4, 5] (by decide) [] busyPart
  obtain ⟨sector', c', hwrite⟩ := hsucceeds ⟨⟨by decide, by decide, by decide⟩, by decide⟩
  obtain ⟨hmem, more, htouched, hoverlaps⟩ := hstores sector' c' hwrite
  refine ⟨sector', c', hwrite, ?_, fun t ht => ?_⟩
  · rw [hmem]
    decide
  · rw [htouched] at ht
    exact hoverlaps t ht

end Bristlemouth.W25
