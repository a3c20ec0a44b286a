import Bristlemouth.Lib.Bytes

/-!
# NOR memory

Bytes by address. Erasing sets a whole block to `0xFF`; programming clears bits within a page, in which its
addresses wrap. An erased block, programmed page by page, holds what it was programmed with.
-/

set_option autoImplicit false

/-- What is stored at each address. -/
abbrev NorMemory := Nat → UInt8

namespace NorMemory

/-- The block of `size` bytes that `addr` lies in, erased. -/
def erase (size addr : Nat) (mem : NorMemory) : NorMemory :=
  fun a => if a / size = addr / size then 0xFF else mem a

/-- At most a page of bytes, programmed from `addr` on within its page of `size` bytes. -/
def program (size addr : Nat) (data : Bytes) (mem : NorMemory) : NorMemory :=
  fun a =>
    let i := (a % size + size - addr % size) % size
    if a / size = addr / size ∧ i < data.length then mem a &&& data.byteAt i else mem a

/-- Pages one after the other from `addr` on. -/
def programAll (size : Nat) : Nat → List Bytes → NorMemory → NorMemory
  | _, [], mem => mem
  | addr, page :: pages, mem => programAll size (addr + size) pages (program size addr page mem)

/-- `data` from `addr` on, in place of what was there. -/
def overwrite (addr : Nat) (data : Bytes) (mem : NorMemory) : NorMemory :=
  fun a => if addr ≤ a ∧ a < addr + data.length then data.byteAt (a - addr) else mem a

/-- The bytes from `addr` on. -/
def read (mem : NorMemory) (addr n : Nat) : Bytes := (List.range n).map fun i => mem (addr + i)

variable {size addr : Nat} {mem : NorMemory}

@[simp] theorem length_read (mem : NorMemory) (addr n : Nat) : (mem.read addr n).length = n := by simp [read]

theorem div_eq_iff {a : Nat} (hsize : 0 < size) (haddr : addr % size = 0) :
    a / size = addr / size ↔ addr ≤ a ∧ a < addr + size := by
  obtain ⟨k, rfl⟩ := Nat.dvd_of_mod_eq_zero haddr
  rw [Nat.mul_div_cancel_left k hsize, Nat.div_eq_iff hsize, Nat.mul_comm size k]
  omega

/-- A whole page, programmed from its beginning. -/
theorem program_page (hsize : 0 < size) (haddr : addr % size = 0) {page : Bytes}
    (hpage : page.length = size) (a : Nat) : program size addr page mem a
      = if addr ≤ a ∧ a < addr + size then mem a &&& page.byteAt (a - addr) else mem a := by
  unfold program
  have hmod := Nat.mod_lt a hsize
  simp only [haddr, Nat.sub_zero, Nat.add_mod_right, Nat.mod_mod, hpage, div_eq_iff hsize haddr]
  by_cases hin : addr ≤ a ∧ a < addr + size
  · have hoff : a % size = a - addr := by
      obtain ⟨k, rfl⟩ := Nat.dvd_of_mod_eq_zero haddr
      rw [show a = (a - size * k) + size * k by omega, Nat.add_mul_mod_self_left, Nat.mod_eq_of_lt (by omega)]
      omega
    rw [if_pos ⟨hin, hmod⟩, if_pos hin, hoff]
  · rw [if_neg fun h => hin h.1, if_neg hin]

theorem programAll_pages (hsize : 0 < size) (pages : List Bytes) :
    ∀ {addr : Nat} {mem : NorMemory}, addr % size = 0 → (∀ page ∈ pages, page.length = size) →
      ∀ a, programAll size addr pages mem a
        = if addr ≤ a ∧ a < addr + pages.flatten.length then mem a &&& Bytes.byteAt pages.flatten (a - addr)
          else mem a := by
  induction pages with
  | nil =>
    intro addr mem _ _ a
    rw [List.flatten_nil, List.length_nil, if_neg (by omega)]
    rfl
  | cons page pages ih =>
    intro addr mem haddr hpages a
    have hpage := hpages page List.mem_cons_self
    have hnext : (addr + size) % size = 0 := by rw [Nat.add_mod_right, haddr]
    have hflat : Bytes.byteAt (page :: pages).flatten (a - addr)
        = if a - addr < size then page.byteAt (a - addr) else Bytes.byteAt pages.flatten (a - addr - size) := by
      rw [List.flatten_cons, Bytes.byteAt, Bytes.byteAt, Bytes.byteAt, List.getD_eq_getElem?_getD,
        List.getD_eq_getElem?_getD, List.getD_eq_getElem?_getD, List.getElem?_append, hpage]
      split <;> rfl
    rw [programAll, ih hnext (fun p hp => hpages p (List.mem_cons_of_mem page hp)),
      program_page hsize haddr hpage, List.flatten_cons, List.length_append, hpage, ← List.flatten_cons, hflat]
    by_cases hlow : addr ≤ a
    · by_cases hfirst : a < addr + size
      · rw [if_neg (by omega), if_pos ⟨hlow, hfirst⟩, if_pos ⟨hlow, by omega⟩, if_pos (by omega)]
      · by_cases hin : a < addr + (size + pages.flatten.length)
        · rw [if_pos ⟨by omega, by omega⟩, if_neg (by omega), if_pos ⟨hlow, hin⟩, if_neg (by omega),
            Nat.sub_sub]
        · rw [if_neg (by omega), if_neg (by omega), if_neg (by omega)]
    · rw [if_neg (by omega), if_neg (by omega), if_neg (by omega)]

/-- An erased block that is programmed page by page holds the pages. -/
theorem programAll_erase {block : Nat} (hblock : 0 < block) (hsize : 0 < size) (haddr : addr % block = 0)
    (hdvd : size ∣ block) {pages : List Bytes} (hpages : ∀ page ∈ pages, page.length = size)
    (hlen : pages.flatten.length = block) :
    programAll size addr pages (erase block addr mem) = overwrite addr pages.flatten mem := by
  funext a
  have haddr' : addr % size = 0 := Nat.mod_eq_zero_of_dvd (hdvd.trans (Nat.dvd_of_mod_eq_zero haddr))
  rw [programAll_pages hsize pages haddr' hpages, overwrite, erase, hlen]
  simp only [div_eq_iff hblock haddr]
  by_cases hin : addr ≤ a ∧ a < addr + block
  · rw [if_pos hin, if_pos hin, if_pos hin]
    have hones : ∀ b : UInt8, 0xFF &&& b = b := by
      intro b
      apply UInt8.toBitVec_inj.mp
      exact BitVec.allOnes_and
    exact hones _
  · rw [if_neg hin, if_neg hin, if_neg hin]

/-- What a block held, with `data` written into it, in place of what it held. -/
theorem overwrite_patched {block start : Nat} {data : Bytes} (hfit : start + data.length ≤ block) :
    overwrite addr ((mem.read addr block).copyAt start data) mem = overwrite (addr + start) data mem := by
  funext a
  have hlen : ((mem.read addr block).copyAt start data).length = block := by
    rw [Bytes.length_copyAt _ _ _ (by rw [length_read]; exact hfit), length_read]
  rw [overwrite, overwrite, hlen]
  by_cases hin : addr ≤ a ∧ a < addr + block
  · have hold : (mem.read addr block)[a - addr]? = some (mem a) := by
      rw [read, List.getElem?_map, List.getElem?_range (by omega), Option.map_some,
        show addr + (a - addr) = a by omega]
    rw [if_pos hin, Bytes.byteAt, List.getD_eq_getElem?_getD,
      Bytes.getElem?_copyAt (by rw [length_read]; exact hfit), hold]
    by_cases hlow : a - addr < start
    · rw [if_pos hlow, if_neg (by omega)]
      rfl
    · by_cases hhigh : a - addr < start + data.length
      · rw [if_neg hlow, if_pos hhigh, if_pos (by omega), Bytes.byteAt, List.getD_eq_getElem?_getD,
          Nat.sub_sub]
      · rw [if_neg hlow, if_neg hhigh, if_neg (by omega)]
        rfl
  · rw [if_neg hin, if_neg (by omega)]

/-- Two stretches of bytes, one after the other. -/
theorem overwrite_append (a b : Bytes) :
    overwrite (addr + a.length) b (overwrite addr a mem) = overwrite addr (a ++ b) mem := by
  funext i
  unfold overwrite
  rw [List.length_append]
  by_cases hlow : addr ≤ i
  · by_cases hfirst : i < addr + a.length
    · rw [if_neg (by omega), if_pos ⟨hlow, hfirst⟩, if_pos ⟨hlow, by omega⟩, Bytes.byteAt, Bytes.byteAt,
        List.getD_eq_getElem?_getD, List.getD_eq_getElem?_getD, List.getElem?_append_left (by omega)]
    · by_cases hin : i < addr + (a.length + b.length)
      · rw [if_pos ⟨by omega, by omega⟩, if_pos ⟨hlow, hin⟩, Bytes.byteAt_append_right (by omega), Nat.sub_sub]
      · rw [if_neg (by omega), if_neg (by omega), if_neg (by omega)]
  · rw [if_neg (by omega), if_neg (by omega), if_neg (by omega)]

end NorMemory
