import Bristlemouth.Dfu.Traced

/-!
# The page buffer

What the client has been given is what it has written, followed by what its
page buffer holds. A chunk keeps this up, or fails to write its page.
-/

set_option autoImplicit false

namespace Bristlemouth.Dfu.Client

open FlashWrite

/-- The transfer between two chunks: `ws` are the writes and `received` the bytes since it started. -/
structure Paging (c : Client) (ws : List FlashWrite) (received : Bytes) : Prop where
  ok : ∀ w ∈ ws, w.ok = true
  contiguous : Contiguous 0 ws
  gathered : image ws ++ c.pageBuf.take c.pageByteCounter.toNat = received
  offset : c.flashOffset.toNat = (image ws).length
  counter : c.pageByteCounter.toNat < imgPageLen
  page : c.pageBuf.length = imgPageLen
  crc : c.runningCrc16 = crc16Ccitt 0 received

/-- All of it is written. -/
structure Flushed (c : Client) (ws : List FlashWrite) (received : Bytes) : Prop where
  ok : ∀ w ∈ ws, w.ok = true
  contiguous : Contiguous 0 ws
  written : image ws = received
  offset : c.flashOffset.toNat = received.length
  crc : c.runningCrc16 = crc16Ccitt 0 received

/-- No write goes past the bytes received. -/
def Bounded (ws : List FlashWrite) (received : Nat) : Prop :=
  ∀ w ∈ ws, w.offset.toNat + w.data.length ≤ received

theorem Bounded.mono {ws : List FlashWrite} {m n : Nat} (h : Bounded ws m) (hmn : m ≤ n) : Bounded ws n :=
  fun w hw => (h w hw).trans hmn

theorem bounded_of_contiguous {ws : List FlashWrite} (h : Contiguous 0 ws) : Bounded ws (image ws).length := by
  intro w hw
  have hend := h.end_le hw
  omega

namespace Paging

variable {c : Client} {ws : List FlashWrite} {received : Bytes}

theorem length (h : Paging c ws received) :
    (image ws).length + c.pageByteCounter.toNat = received.length := by
  have hcounter := h.counter
  have hpage := h.page
  rw [← h.gathered, List.length_append, List.length_take]
  omega

theorem bounded (h : Paging c ws received) : Bounded ws received.length :=
  (bounded_of_contiguous h.contiguous).mono (by have := h.length; omega)

/-- Only the page buffer, its count, the flash offset and the CRC matter. -/
theorem congr {c' : Client} (h : Paging c ws received) (hbuf : c'.pageBuf = c.pageBuf)
    (hcounter : c'.pageByteCounter = c.pageByteCounter) (hoffset : c'.flashOffset = c.flashOffset)
    (hcrc : c'.runningCrc16 = c.runningCrc16) : Paging c' ws received where
  ok := h.ok
  contiguous := h.contiguous
  gathered := by rw [hbuf, hcounter, h.gathered]
  offset := by rw [hoffset, h.offset]
  counter := by rw [hcounter]; exact h.counter
  page := by rw [hbuf, h.page]
  crc := by rw [hcrc, h.crc]

end Paging

/-- A transfer that has just started. -/
theorem paging_restart {c : Client} (h : c.pageBuf.length = imgPageLen) : Paging c.restartTransfer [] [] where
  ok := by simp
  contiguous := trivial
  gathered := by simp [restartTransfer]
  offset := by simp [restartTransfer]
  counter := by simp [restartTransfer]
  page := h
  crc := rfl

theorem filledPage_eq {c : Client} {chunk : Bytes} (hpage : c.pageBuf.length = imgPageLen)
    (hcounter : c.pageByteCounter.toNat < imgPageLen) (hfills : imgPageLen ≤ c.pageByteCounter.toNat + chunk.length) :
    filledPage c chunk = c.pageBuf.take c.pageByteCounter.toNat ++ chunk.take (imgPageLen - c.pageByteCounter.toNat) := by
  have hhead : (chunk.take (imgPageLen - c.pageByteCounter.toNat)).length = imgPageLen - c.pageByteCounter.toNat := by
    rw [List.length_take]
    omega
  rw [filledPage, Bytes.copyAt, hhead, List.drop_of_length_le (by omega), List.append_nil]

theorem length_filledPage {c : Client} {chunk : Bytes} (hpage : c.pageBuf.length = imgPageLen)
    (hcounter : c.pageByteCounter.toNat < imgPageLen) (hfills : imgPageLen ≤ c.pageByteCounter.toNat + chunk.length) :
    (filledPage c chunk).length = imgPageLen := by
  rw [filledPage_eq hpage hcounter hfills, List.length_append, List.length_take, List.length_take]
  omega

section Payload

variable {E : Type} [Effects E]

/-- The chunk fills the page, and the page is not written. -/
def PageFails (d : Dfu Client E) (chunk : Bytes) : Prop :=
  imgPageLen ≤ d.roles.pageByteCounter.toNat + chunk.length ∧
    (Effects.flashWrite d.fx d.roles.flashOffset (filledPage d.roles chunk)).1 = false

/-- What a chunk does to the page buffer. -/
inductive Gathers (d : Dfu Client (Traced E)) (chunk : Bytes) (pre ws : List FlashWrite) (received : Bytes)
    (result : Bool) (d' : Dfu Client (Traced E)) : Prop where
  | kept (ws' : List FlashWrite) (writes : d'.fx.writes = pre ++ ws') (paging : Paging d'.roles ws' (received ++ chunk))
      (failed : result = false → chunk = []) (wrote : ¬ PageFails d chunk)
  | lost (ws' : List FlashWrite) (writes : d'.fx.writes = pre ++ ws')
      (bounded : Bounded ws' (received.length + chunk.length)) (unwritten : ∃ w ∈ ws', w.ok = false)
      (page : d'.roles.pageBuf.length = imgPageLen)
      (failed : result = false) (fails : PageFails d chunk) (counter : d'.roles.pageByteCounter = 0)
      (offset : d'.roles.flashOffset = d.roles.flashOffset) (crc : d'.roles.runningCrc16 = d.roles.runningCrc16)

theorem processPayload_gathers {d : Dfu Client (Traced E)} {chunk : Bytes} {pre ws : List FlashWrite} {received : Bytes}
    (h : Paging { d.roles with runningCrc16 := crc16Ccitt 0 received } ws received)
    (hcrc : d.roles.runningCrc16 = crc16Ccitt 0 (received ++ chunk)) (hwrites : d.fx.writes = pre ++ ws)
    (hchunk : chunk.length ≤ dfuMaxChunkSize) (hroom : received.length + chunk.length < 2 ^ 32) :
    Gathers d chunk pre ws received (processPayload d chunk).1 (processPayload d chunk).2 := by
  have hlen : imgPageLen = 2048 := rfl
  have hmax : dfuMaxChunkSize = 1024 := rfl
  have hlength : (image ws).length + d.roles.pageByteCounter.toNat = received.length := h.length
  have hcounter : d.roles.pageByteCounter.toNat < imgPageLen := h.counter
  have hpage : d.roles.pageBuf.length = imgPageLen := h.page
  have hoffset : d.roles.flashOffset.toNat = (image ws).length := h.offset
  have hgathered : image ws ++ d.roles.pageBuf.take d.roles.pageByteCounter.toNat = received := h.gathered
  unfold processPayload
  split
  · rename_i hempty
    have hnil : chunk = [] := List.length_eq_zero_iff.mp hempty
    refine .kept ws hwrites ?_ (fun _ => hnil) fun hfails => ?_
    · rw [hnil, List.append_nil] at hcrc ⊢
      exact ⟨h.ok, h.contiguous, h.gathered, h.offset, h.counter, h.page, hcrc⟩
    · have hfull := hfails.1
      omega
  · dsimp only
    split
    · rename_i hfits
      have hcount : (d.roles.pageByteCounter + UInt16.ofNat chunk.length).toNat =
          d.roles.pageByteCounter.toNat + chunk.length := by
        rw [UInt16.toNat_add, UInt16.toNat_ofNat']
        omega
      refine .kept ws hwrites ⟨h.ok, h.contiguous, ?_, h.offset, ?_, ?_, hcrc⟩ (by simp) fun hfails => ?_
      · dsimp only
        rw [hcount, Bytes.take_copyAt chunk (by omega), ← List.append_assoc, hgathered]
      · dsimp only
        rw [hcount]
        exact hfits
      · exact (Bytes.length_copyAt _ _ _ (by omega)).trans hpage
      · have hfull := hfails.1
        omega
    · rename_i hfills
      have hfull := length_filledPage hpage hcounter (by omega : imgPageLen ≤ _ + chunk.length)
      have heq := filledPage_eq hpage hcounter (by omega : imgPageLen ≤ _ + chunk.length)
      have himage : (image (ws ++ [⟨d.roles.flashOffset, filledPage d.roles chunk, true⟩])).length =
          (image ws).length + imgPageLen := by
        rw [image_append, image_singleton, List.length_append, hfull]
      split
      · rename_i hfailed
        rw [Bool.not_eq_true'] at hfailed
        refine .lost (ws ++ [⟨d.roles.flashOffset, filledPage d.roles chunk, false⟩]) ?_ ?_
          ⟨_, List.mem_concat_self, rfl⟩ ?_ rfl ⟨by omega, hfailed⟩ rfl rfl rfl
        · rw [← List.append_assoc, ← hwrites, ← hfailed]
          rfl
        · intro w hw
          rcases List.mem_append.mp hw with hw | hw
          · have := h.bounded w hw
            omega
          · rw [List.mem_singleton.mp hw]
            dsimp only
            rw [hfull, hoffset]
            omega
        · exact hfull
      · rename_i hwrote
        have hdone : (Effects.flashWrite d.fx d.roles.flashOffset (filledPage d.roles chunk)).1 = true := by
          rwa [Bool.not_eq_true, Bool.not_eq_false'] at hwrote
        have htail : (UInt16.ofNat (chunk.drop (imgPageLen - d.roles.pageByteCounter.toNat)).length).toNat =
            (chunk.drop (imgPageLen - d.roles.pageByteCounter.toNat)).length := by
          rw [UInt16.toNat_ofNat', List.length_drop]
          omega
        refine .kept (ws ++ [⟨d.roles.flashOffset, filledPage d.roles chunk, true⟩]) ?_ ⟨?_, ?_, ?_, ?_, ?_, ?_, hcrc⟩
          (by simp) (fun hfails => ?_)
        · rw [← List.append_assoc, ← hwrites, ← hdone]
          rfl
        · intro w hw
          rcases List.mem_append.mp hw with hw | hw
          · exact h.ok w hw
          · rw [List.mem_singleton.mp hw]
        · exact contiguous_append.mpr ⟨h.contiguous, by rw [Nat.zero_add]; exact hoffset, trivial⟩
        · dsimp only
          rw [htail, Bytes.copyAt, List.take_zero, List.nil_append, List.take_left, image_append,
            image_singleton, heq, ← List.append_assoc, hgathered, List.append_assoc, List.take_append_drop]
        · dsimp only
          rw [UInt32.toNat_add, UInt32.toNat_ofNat', himage, hoffset]
          omega
        · dsimp only
          rw [htail, List.length_drop]
          omega
        · dsimp only
          rw [Bytes.length_copyAt _ _ _ (by rw [hfull, List.length_drop]; omega), hfull]
        · rw [hfails.2] at hdone
          cases hdone

theorem processPayload_core (d : Dfu Client E) (chunk : Bytes) : (processPayload d chunk).2.core = d.core := by
  unfold processPayload
  split
  · rfl
  · dsimp only
    split
    · rfl
    · split <;> rfl

theorem processPayload_currentChunk (d : Dfu Client E) (chunk : Bytes) :
    (processPayload d chunk).2.roles.currentChunk = d.roles.currentChunk := by
  unfold processPayload
  split
  · rfl
  · dsimp only
    split
    · rfl
    · split <;> rfl

theorem gatherChunk_roles (d : Dfu Client E) (chunk : Bytes) :
    (gatherChunk d chunk).roles = (processPayload (hearChunk d chunk) chunk).2.roles := by
  unfold gatherChunk
  dsimp only
  split <;> rfl

theorem gatherChunk_fx (d : Dfu Client E) (chunk : Bytes) :
    (gatherChunk d chunk).fx = (processPayload (hearChunk d chunk) chunk).2.fx := by
  unfold gatherChunk
  dsimp only
  split <;> rfl

/-- A chunk that was not taken in whole asks for `Error`. -/
theorem gatherChunk_pending (d : Dfu Client E) (chunk : Bytes) :
    (gatherChunk d chunk).core.pending =
      if (processPayload (hearChunk d chunk) chunk).1 then d.core.pending else some .error := by
  have hcore := processPayload_core (hearChunk d chunk) chunk
  unfold gatherChunk
  dsimp only
  split
  · rw [hcore]
    rfl
  · rfl

/-- The rest of the page buffer. -/
def restOf (c : Client) : Bytes := c.pageBuf.take c.pageByteCounter.toNat

theorem finishTransfer_of_wrote {d : Dfu Client E} (h : d.roles.pageByteCounter ≠ 0)
    (hok : (Effects.flashWrite d.fx d.roles.flashOffset (restOf d.roles)).1 = true) :
    finishTransfer d =
      (⟨d.core, { d.roles with flashOffset := d.roles.flashOffset + d.roles.pageByteCounter.toUInt32 },
        (Effects.flashClose (Effects.flashWrite d.fx d.roles.flashOffset (restOf d.roles)).2).2⟩ :
        Dfu Client E).setPendingStateChange .clientValidating := by
  rw [restOf] at hok ⊢
  simp [finishTransfer, processEnd, h, hok]

theorem finishTransfer_of_failed {d : Dfu Client E} (h : d.roles.pageByteCounter ≠ 0)
    (hok : (Effects.flashWrite d.fx d.roles.flashOffset (restOf d.roles)).1 = false) :
    finishTransfer d =
      transitionToError (⟨d.core, d.roles,
        (Effects.flashClose (Effects.flashWrite d.fx d.roles.flashOffset (restOf d.roles)).2).2⟩ : Dfu Client E)
        .bmFrame := by
  rw [restOf] at hok ⊢
  simp [finishTransfer, processEnd, h, hok]

theorem finishTransfer_of_empty {d : Dfu Client E} (h : d.roles.pageByteCounter = 0) :
    finishTransfer d =
      (⟨d.core, d.roles, (Effects.flashClose d.fx).2⟩ : Dfu Client E).setPendingStateChange .clientValidating := by
  simp [finishTransfer, processEnd, h]

/-- The last of the page buffer is written, or `Error` is asked for. -/
theorem finishTransfer_flushes {d : Dfu Client (Traced E)} {pre ws : List FlashWrite} {received : Bytes}
    (h : Paging d.roles ws received) (hwrites : d.fx.writes = pre ++ ws) (hroom : received.length < 2 ^ 32) :
    ∃ ws', (finishTransfer d).fx.writes = pre ++ ws' ∧ Bounded ws' received.length ∧
      (finishTransfer d).roles.pageBuf = d.roles.pageBuf ∧
      (finishTransfer d).roles.currentChunk = d.roles.currentChunk ∧
      ((finishTransfer d).core.pending = some .clientValidating ∧ Flushed (finishTransfer d).roles ws' received ∨
        (finishTransfer d).core.pending = some .error) := by
  have hlength := h.length
  have hoffset := h.offset
  by_cases hempty : d.roles.pageByteCounter = 0
  · have hgathered : image ws = received := by
      have hall := h.gathered
      rwa [hempty, show (0 : UInt16).toNat = 0 from rfl, List.take_zero, List.append_nil] at hall
    rw [finishTransfer_of_empty hempty]
    exact ⟨ws, hwrites, h.bounded, rfl, rfl, .inl ⟨rfl, h.ok, h.contiguous, hgathered,
      hoffset.trans (by rw [hgathered]), h.crc⟩⟩
  · have hrest : (restOf d.roles).length = d.roles.pageByteCounter.toNat := by
      have hcounter := h.counter
      have hpage := h.page
      rw [restOf, List.length_take]
      omega
    have hbounded : ∀ ok, Bounded (ws ++ [⟨d.roles.flashOffset, restOf d.roles, ok⟩]) received.length := by
      intro ok w hw
      rcases List.mem_append.mp hw with hw | hw
      · exact h.bounded w hw
      · rw [List.mem_singleton.mp hw]
        dsimp only
        omega
    have hlog : ∀ ok, (Effects.flashWrite d.fx d.roles.flashOffset (restOf d.roles)).1 = ok →
        (Effects.flashWrite d.fx d.roles.flashOffset (restOf d.roles)).2.writes =
          pre ++ (ws ++ [⟨d.roles.flashOffset, restOf d.roles, ok⟩]) := by
      intro ok hok
      rw [← List.append_assoc, ← hwrites, ← hok]
      rfl
    cases hok : (Effects.flashWrite d.fx d.roles.flashOffset (restOf d.roles)).1 with
    | false =>
      rw [finishTransfer_of_failed hempty hok]
      exact ⟨_, hlog false hok, hbounded false, rfl, rfl, .inr rfl⟩
    | true =>
      rw [finishTransfer_of_wrote hempty hok]
      refine ⟨_, hlog true hok, hbounded true, rfl, rfl, .inl ⟨rfl, ?_, ?_, ?_, ?_, h.crc⟩⟩
      · intro w hw
        rcases List.mem_append.mp hw with hw | hw
        · exact h.ok w hw
        · rw [List.mem_singleton.mp hw]
      · exact contiguous_append.mpr ⟨h.contiguous, by rw [Nat.zero_add]; exact hoffset, trivial⟩
      · rw [image_append, image_singleton, restOf, h.gathered]
      · rw [setPendingStateChange_roles, UInt32.toNat_add, UInt16.toNat_toUInt32]
        omega

/-- The page of the last chunk fails. The chunk is then finished as if it had not. -/
def LastPageFails (d : Dfu Client E) (chunk : Bytes) : Prop :=
  PageFails d chunk ∧ ¬ d.roles.currentChunk + 1 < d.roles.numChunks

/-- What becomes of the transfer with a chunk. -/
inductive ChunkEnd (d : Dfu Client (Traced E)) (chunk : Bytes) (received : Bytes) (ws : List FlashWrite)
    (d' : Dfu Client (Traced E)) : Prop where
  | more (pending : d'.core.pending = d.core.pending) (paging : Paging d'.roles ws received)
      (current : d'.roles.currentChunk < d'.roles.numChunks) (seen : ¬ LastPageFails d chunk)
  | failed (pending : d'.core.pending = some .error) (seen : ¬ LastPageFails d chunk)
  | finished (pending : d'.core.pending = some .clientValidating) (flushed : Flushed d'.roles ws received)
      (seen : ¬ LastPageFails d chunk)
  | overlooked (pending : d'.core.pending = some .clientValidating) (fails : LastPageFails d chunk)
      (unwritten : ∃ w ∈ ws, w.ok = false) (offset : d'.roles.flashOffset = d.roles.flashOffset)
      (crc : d'.roles.runningCrc16 = crc16Ccitt d.roles.runningCrc16 chunk)

theorem gatherChunk_gathers {d : Dfu Client (Traced E)} {chunk : Bytes} {pre ws : List FlashWrite} {received : Bytes}
    (h : Paging d.roles ws received) (hwrites : d.fx.writes = pre ++ ws) (hchunk : chunk.length ≤ dfuMaxChunkSize)
    (hroom : received.length + chunk.length < 2 ^ 32) :
    Gathers (hearChunk d chunk) chunk pre ws received (processPayload (hearChunk d chunk) chunk).1
      (gatherChunk d chunk) := by
  have hpaging : Paging { (hearChunk d chunk).roles with runningCrc16 := crc16Ccitt 0 received } ws received :=
    h.congr rfl rfl rfl h.crc.symm
  have hcrc : (hearChunk d chunk).roles.runningCrc16 = crc16Ccitt 0 (received ++ chunk) := by
    rw [crc16Ccitt_append, ← h.crc]
    rfl
  have hroles := gatherChunk_roles d chunk
  have hfx := gatherChunk_fx d chunk
  cases processPayload_gathers hpaging hcrc hwrites hchunk hroom with
  | kept ws' hwrites' hpaging' hfailed hwrote =>
    exact .kept ws' (by rw [hfx, hwrites']) (by rw [hroles]; exact hpaging') hfailed hwrote
  | lost ws' hwrites' hbounded hunwritten hpage hfailed hfails hcounter hoffset hcrc' =>
    exact .lost ws' (by rw [hfx, hwrites']) hbounded hunwritten (by rw [hroles, hpage]) hfailed hfails (by rw [hroles, hcounter])
      (by rw [hroles, hoffset]) (by rw [hroles, hcrc'])

theorem receiveChunk_ends {d : Dfu Client (Traced E)} {chunk : Bytes} {pre ws : List FlashWrite} {received : Bytes}
    (h : Paging d.roles ws received) (hwrites : d.fx.writes = pre ++ ws) (hchunk : chunk.length ≤ dfuMaxChunkSize)
    (hroom : received.length + chunk.length < 2 ^ 32) :
    ∃ ws', (receiveChunk d chunk).fx.writes = pre ++ ws' ∧ Bounded ws' (received.length + chunk.length) ∧
      (receiveChunk d chunk).roles.pageBuf.length = imgPageLen ∧
      (receiveChunk d chunk).roles.currentChunk = d.roles.currentChunk + 1 ∧
      ChunkEnd d chunk (received ++ chunk) ws' (receiveChunk d chunk) := by
  have hcurrent : (gatherChunk d chunk).roles.nextChunk.currentChunk = d.roles.currentChunk + 1 := by
    rw [nextChunk, gatherChunk_roles, processPayload_currentChunk]
    rfl
  have hsame := gatherChunk_sameUpdate d chunk
  have hpending := gatherChunk_pending d chunk
  have hroom' : (received ++ chunk).length < 2 ^ 32 := by rwa [List.length_append]
  have hgathers := gatherChunk_gathers h hwrites hchunk hroom
  unfold receiveChunk
  dsimp only
  split
  · rename_i hmore
    have hseen : ¬ LastPageFails d chunk := fun hfails => hfails.2 <| by
      rw [← hcurrent, ← hsame.numChunks]
      exact hmore
    cases hgathers with
    | kept ws' hwrites' hpaging' hfailed =>
      refine ⟨ws', hwrites', by rw [← List.length_append]; exact hpaging'.bounded, hpaging'.page, hcurrent, ?_⟩
      cases hresult : (processPayload (hearChunk d chunk) chunk).1 with
      | false =>
        rw [hresult] at hpending
        exact .failed hpending hseen
      | true =>
        rw [hresult, if_pos rfl] at hpending
        exact .more hpending (hpaging'.congr rfl rfl rfl rfl) hmore hseen
    | lost ws' hwrites' hbounded _ hpage hfailed =>
      rw [hfailed] at hpending
      exact ⟨ws', hwrites', hbounded, hpage, hcurrent, .failed hpending hseen⟩
  · rename_i hlast
    cases hgathers with
    | kept ws' hwrites' hpaging' _ hwrote =>
      have hseen : ¬ LastPageFails d chunk := fun hfails => hwrote hfails.1
      have hnext : Paging (gatherChunk d chunk).roles.nextChunk ws' (received ++ chunk) :=
        hpaging'.congr rfl rfl rfl rfl
      obtain ⟨ws'', hwrites'', hbounded, hbuf, hcurrent', hend⟩ := finishTransfer_flushes
        (d := { gatherChunk d chunk with roles := (gatherChunk d chunk).roles.nextChunk }) hnext hwrites' hroom'
      refine ⟨ws'', hwrites'', by rwa [← List.length_append], by rw [hbuf]; exact hnext.page, hcurrent'.trans hcurrent, ?_⟩
      rcases hend with ⟨hdone, hflushed⟩ | herror
      · exact .finished hdone hflushed hseen
      · exact .failed herror hseen
    | lost ws' hwrites' hbounded hunwritten hpage _ hfails hcounter hoffset hcrc =>
      -- Nothing is held after a failed page, so there is nothing left to fail.
      rw [finishTransfer_of_empty (d := { gatherChunk d chunk with roles := (gatherChunk d chunk).roles.nextChunk })
        hcounter]
      refine ⟨ws', hwrites', hbounded, hpage, hcurrent,
        .overlooked rfl ⟨hfails, fun hmore => hlast ?_⟩ hunwritten hoffset hcrc⟩
      rw [hcurrent]
      exact hmore.trans_eq hsame.numChunks.symm

end Payload

end Bristlemouth.Dfu.Client
