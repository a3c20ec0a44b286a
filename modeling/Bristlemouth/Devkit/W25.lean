import Bristlemouth.Lib.Fields
import Bristlemouth.Lib.NorMemory

/-!
# The W25Q64JV

`w25.rs` over a part that answers its commands: a NOR memory with a status register, which takes its time
over erasing and programming, and a bus whose transfers may fail.
-/

set_option autoImplicit false

namespace Bristlemouth.W25

def sectorSize : Nat := 4096
def pageSize : Nat := 256
def maxAddress : Nat := 0x7FFFFF

def readData : UInt8 := 0x03
def pageProgram : UInt8 := 0x02
def readStatus1 : UInt8 := 0x05
def writeEnable : UInt8 := 0x06
def sectorErase : UInt8 := 0x20

def sr1Busy : UInt8 := 1
def sr1Wel : UInt8 := 2

def writeTimeoutMs : Nat := 15
def sectorEraseTimeoutMs : Nat := 400
def pollUs : Nat := 10

/-- `embedded_hal::spi::ErrorKind`. -/
inductive ErrorKind where
  | overrun
  | modeFault
  | frameFormat
  | chipSelectFault
  | other
deriving DecidableEq

inductive Error where
  | spi (kind : ErrorKind)
  | timeout
  | outOfRange
deriving DecidableEq

/-- The operations of one transaction. -/
inductive Operation where
  | write (bytes : Bytes)
  | read (len : Nat)

/-! ### The part -/

/-- The part behind the bus. `busy` counts the status reads up to the first that finds it idle, `eraseFor` and
`programFor` are what it is set to by each erase and each program to come, and `faults` says which transfers to
come fail. `touched` records the addresses that were erased or programmed at. -/
structure Chip where
  mem : NorMemory
  wel : Bool
  busy : Nat
  touched : List Nat
  eraseFor : List Nat
  programFor : List Nat
  faults : List (Option ErrorKind)

namespace Chip

def status (c : Chip) : UInt8 :=
  (if 0 < c.busy then sr1Busy else 0) ||| (if c.wel then sr1Wel else 0)

/-- The time until a status read. The write enable latch goes with the end of the operation. -/
def pass (c : Chip) : Chip := { c with busy := c.busy - 1, wel := c.wel && c.busy ≠ 1 }

/-- An operation begins, at `addr`. -/
def begin (c : Chip) (addr : Nat) (mem : NorMemory) (busy : Nat) : Chip :=
  { c with mem, busy, wel := decide (0 < busy), touched := c.touched ++ [addr] }

def beginErase (c : Chip) (addr : Nat) : Chip :=
  { c with eraseFor := c.eraseFor.tail }.begin addr (c.mem.erase sectorSize addr) (c.eraseFor.headD 0)

def beginProgram (c : Chip) (addr : Nat) (page : Bytes) : Chip :=
  { c with programFor := c.programFor.tail }.begin addr (c.mem.program pageSize addr page) (c.programFor.headD 0)

/-- A command whose bytes are `cmd` and `args`, and the `n` bytes that are read after it. -/
def command (c : Chip) (cmd : UInt8) (args : Bytes) (n : Nat) : Bytes × Chip :=
  let addr := Bytes.beNat (args.take 3)
  if cmd = readStatus1 then (List.replicate n c.pass.status, c.pass)
  else if 0 < c.busy then (List.replicate n 0xFF, c)
  else if cmd = writeEnable then (List.replicate n 0xFF, { c with wel := true })
  else if cmd = readData then (c.mem.read addr n, c)
  else if cmd = sectorErase ∧ c.wel then
    (List.replicate n 0xFF, c.beginErase addr)
  else if cmd = pageProgram ∧ c.wel then
    (List.replicate n 0xFF, c.beginProgram addr (args.drop 3))
  else (List.replicate n 0xFF, c)

/-- The next transfer goes through. -/
def carried (c : Chip) : Chip := { c with faults := c.faults.tail }

variable (c : Chip) (args : Bytes) (n : Nat)

theorem command_status : c.command readStatus1 args n = (List.replicate n c.pass.status, c.pass) := by
  rw [command, if_pos rfl]

variable {c} (hidle : c.busy = 0)

include hidle

theorem command_enable : c.command writeEnable args n = (List.replicate n 0xFF, { c with wel := true }) := by
  unfold command
  rw [if_neg (by decide), if_neg (by omega), if_pos rfl]

theorem command_read :
    c.command readData args n = (c.mem.read (Bytes.beNat (args.take 3)) n, c) := by
  unfold command
  rw [if_neg (by decide), if_neg (by omega), if_neg (by decide), if_pos rfl]

theorem command_erase (hwel : c.wel = true) : c.command sectorErase args n =
    (List.replicate n 0xFF, c.beginErase (Bytes.beNat (args.take 3))) := by
  unfold command
  rw [if_neg (by decide), if_neg (by omega), if_neg (by decide), if_neg (by decide), if_pos ⟨rfl, hwel⟩]

theorem command_program (hwel : c.wel = true) : c.command pageProgram args n =
    (List.replicate n 0xFF, c.beginProgram (Bytes.beNat (args.take 3)) (args.drop 3)) := by
  unfold command
  rw [if_neg (by decide), if_neg (by omega), if_neg (by decide), if_neg (by decide),
    if_neg (fun h => absurd h.1 (by decide)), if_pos ⟨rfl, hwel⟩]

end Chip

/-! ### The bus -/

/-- A computation over the bus: what fails keeps what was done before it. -/
abbrev BusM := ExceptT Error (StateM Chip)

theorem BusM.bind_eq_ok {α β : Type} {x : BusM α} {f : α → BusM β} {c c'' : Chip} {b : β} :
    (x >>= f) c = (.ok b, c'') ↔ ∃ a c', x c = (.ok a, c') ∧ f a c' = (.ok b, c'') := by
  change (StateT.bind x (ExceptT.bindCont f)) c = _ ↔ _
  simp only [StateT.bind, bind]
  rcases hx : x c with ⟨a | a, c'⟩
  · constructor
    · intro h
      cases h
    · rintro ⟨a', c'', h, -⟩
      cases h
  · constructor
    · intro h
      exact ⟨a, c', rfl, h⟩
    · rintro ⟨a', c'', h, h'⟩
      cases h
      exact h'

def Operation.written : List Operation → Bytes
  | [] => []
  | .write bytes :: ops => bytes ++ written ops
  | .read _ :: ops => written ops

def Operation.wanted : List Operation → Nat
  | [] => 0
  | .write _ :: ops => wanted ops
  | .read len :: ops => len + wanted ops

/-- `Bus::transaction`, with the bytes it read. -/
def transaction (ops : List Operation) : BusM Bytes := fun c =>
  match c.faults.headD none with
  | some kind => (.error (.spi kind), c.carried)
  | none =>
    match Operation.written ops with
    | [] => (.ok (List.replicate (Operation.wanted ops) 0xFF), c.carried)
    | cmd :: args =>
      let (data, c) := c.carried.command cmd args (Operation.wanted ops)
      (.ok data, c)

def command (cmd : UInt8) : BusM Unit := do
  let _ ← transaction [.write [cmd]]

def status : BusM UInt8 := do
  let data ← transaction [.write [readStatus1], .read 1]
  return data.byteAt 0

/-- The loop of `Bus::wait`. -/
def polls (mask : UInt8) (set : Bool) : Nat → BusM Unit
  | 0 => throw .timeout
  | n + 1 => do
    let sr ← status
    if decide (sr &&& mask ≠ 0) = set then pure () else polls mask set n

def wait (mask : UInt8) (set : Bool) (timeoutMs : Nat) : BusM Unit :=
  polls mask set (timeoutMs * 1000 / pollUs + 1)

def header (cmd : UInt8) (addr : UInt32) : Bytes := cmd :: (Bytes.beBytes 4 addr.toNat).drop 1

def busRead (addr : UInt32) (len : Nat) : BusM Bytes := do
  wait sr1Busy false writeTimeoutMs
  transaction [.write (header readData addr), .read len]

def eraseSector (addr : UInt32) : BusM Unit := do
  wait sr1Busy false writeTimeoutMs
  command writeEnable
  wait sr1Wel true writeTimeoutMs
  let _ ← transaction [.write (header sectorErase addr)]
  wait sr1Wel false sectorEraseTimeoutMs

def programPage (addr : UInt32) (page : Bytes) : BusM Unit := do
  wait sr1Busy false writeTimeoutMs
  command writeEnable
  wait sr1Wel true writeTimeoutMs
  let _ ← transaction [.write (header pageProgram addr), .write page]
  wait sr1Wel false writeTimeoutMs

/-! ### The driver -/

def checkRange (addr : UInt32) (len : Nat) : Except Error Unit :=
  if len < 2 ^ 32 ∧ addr.toNat + len < 2 ^ 32 ∧ addr.toNat + len < maxAddress then .ok ()
  else .error .outOfRange

/-- The pages of a sector, from the `i`-th on. -/
def programPages (base : UInt32) : Nat → List Bytes → BusM Unit
  | _, [] => pure ()
  | i, page :: pages => do
    programPage (base + UInt32.ofNat (i * pageSize)) page
    programPages base (i + 1) pages

/-- One turn of the loop of `W25::write`: the sector buffer after it. -/
def writeSector (addr : UInt32) (data : Bytes) : BusM Bytes := do
  let base := addr - addr % UInt32.ofNat sectorSize
  let start := (addr - base).toNat
  let n := min data.length (sectorSize - start)
  let sector ← busRead base sectorSize
  let sector := sector.copyAt start (data.take n)
  eraseSector base
  programPages base 0 (sector.chunks pageSize)
  return sector

/-- How much of the data goes into the sector at `addr`. -/
def sectorPart (addr : UInt32) (data : Bytes) : Nat :=
  min data.length (sectorSize - (addr % UInt32.ofNat sectorSize).toNat)

theorem sectorPart_pos (addr : UInt32) {data : Bytes} (h : data ≠ []) : 0 < sectorPart addr data := by
  have hlen := List.length_pos_of_ne_nil h
  have hmod : (addr % UInt32.ofNat sectorSize).toNat < sectorSize := by
    rw [UInt32.toNat_mod]
    exact Nat.mod_lt _ (by decide)
  unfold sectorPart
  omega

def writeLoop (addr : UInt32) (data sector : Bytes) : BusM Bytes :=
  if _h : data = [] then pure sector
  else do
    let sector ← writeSector addr data
    writeLoop (addr + UInt32.ofNat (sectorPart addr data)) (data.drop (sectorPart addr data)) sector
termination_by data.length
decreasing_by
  have hpos := sectorPart_pos addr _h
  have hlen := List.length_pos_of_ne_nil _h
  rw [List.length_drop]
  omega

/-- `W25::write`: the sector buffer afterwards. -/
def write (addr : UInt32) (data sector : Bytes) : BusM Bytes :=
  match checkRange addr data.length with
  | .error e => throw e
  | .ok () => writeLoop addr data sector

end Bristlemouth.W25
