import Bristlemouth.Dfu.PageBuffer

/-!
# Chunks into pages

`process_payload` over a whole run of chunks, and `process_end` after it, with the panics of their slices
and sums: the pages written and the bytes held are the chunks in order.
-/

set_option autoImplicit false

namespace Bristlemouth.Dfu.Client

open FlashWrite

/-- `buf[start..stop].copy_from_slice(data)`. -/
def copyFromSlice (buf : Bytes) (start stop : Nat) (data : Bytes) : Option Bytes :=
  if start ≤ stop ∧ stop ≤ buf.length ∧ data.length = stop - start then some (buf.copyAt start data)
  else none

/-- A sum of two `u16`s that must not overflow. -/
def addU16 (a b : UInt16) : Option UInt16 := if a.toNat + b.toNat < 2 ^ 16 then some (a + b) else none

/-- `chunk.split_at(mid)`. -/
def splitAt (chunk : Bytes) (mid : Nat) : Option (Bytes × Bytes) :=
  if mid ≤ chunk.length then some (chunk.take mid, chunk.drop mid) else none

section

variable {E : Type} [Effects E]

/-- `process_payload`: `none` is a panic. -/
def processPayloadChecked (d : Dfu Client E) (chunk : Bytes) : Option (Bool × Dfu Client E) :=
  if chunk.length = 0 then some (false, d)
  else
    let counter := d.roles.pageByteCounter.toNat
    if counter + chunk.length < imgPageLen then do
      let pageBuf ← copyFromSlice d.roles.pageBuf counter (counter + chunk.length) chunk
      let pageByteCounter ← addU16 d.roles.pageByteCounter (UInt16.ofNat chunk.length)
      some (true, { d with roles := { d.roles with pageBuf, pageByteCounter } })
    else if imgPageLen < counter then none
    else do
      let (head, tail) ← splitAt chunk (imgPageLen - counter)
      let pageBuf ← copyFromSlice d.roles.pageBuf counter d.roles.pageBuf.length head
      let wrote := Effects.flashWrite d.fx d.roles.flashOffset pageBuf
      let d := { d with fx := wrote.2, roles := { d.roles with pageBuf, pageByteCounter := 0 } }
      if !wrote.1 then some (false, d)
      else do
        let pageBuf ← copyFromSlice pageBuf 0 tail.length tail
        some (true, { d with roles := { d.roles with
          flashOffset := d.roles.flashOffset + UInt32.ofNat imgPageLen
          pageBuf
          pageByteCounter := UInt16.ofNat tail.length } })

/-- `process_end`: `none` is a panic. -/
def processEndChecked (d : Dfu Client E) : Option (Bool × Dfu Client E) :=
  if d.roles.pageByteCounter.toNat ≤ d.roles.pageBuf.length then some (processEnd d) else none

/-- Chunk after chunk. -/
def payloads (d : Dfu Client E) : List Bytes → Option (Dfu Client E)
  | [] => some d
  | chunk :: chunks => do
    let (_, d) ← processPayloadChecked d chunk
    payloads d chunks

end

/-- The pages written, all of them whole and in their places, and after them what is held. The flash
offset wraps. -/
structure Pages (c : Client) (ws : List FlashWrite) (received : Bytes) : Prop where
  counter : c.pageByteCounter.toNat < imgPageLen
  offset : c.flashOffset.toNat % imgPageLen = 0
  written : c.flashOffset = UInt32.ofNat (image ws).length
  gathered : image ws ++ c.pageBuf.take c.pageByteCounter.toNat = received
  page : c.pageBuf.length = imgPageLen

theorem pages_restart {c : Client} (h : c.pageBuf.length = imgPageLen) : Pages c.restartTransfer [] [] where
  counter := Nat.zero_lt_succ _
  offset := rfl
  written := rfl
  gathered := rfl
  page := h

section

variable {E : Type} [Effects E] {d : Dfu Client E} {chunk : Bytes}

/-- Within the page buffer nothing panics. -/
theorem processPayloadChecked_eq (hpage : d.roles.pageBuf.length = imgPageLen)
    (hcounter : d.roles.pageByteCounter.toNat < imgPageLen) (hchunk : chunk.length ≤ dfuMaxChunkSize) :
    processPayloadChecked d chunk = some (processPayload d chunk) := by
  have hlen : imgPageLen = 2048 := rfl
  have hmax : dfuMaxChunkSize = 1024 := rfl
  unfold processPayloadChecked processPayload
  by_cases hempty : chunk.length = 0
  · rw [if_pos hempty, if_pos hempty]
  · rw [if_neg hempty, if_neg hempty]
    dsimp only
    by_cases hfits : d.roles.pageByteCounter.toNat + chunk.length < imgPageLen
    · have hto : (UInt16.ofNat chunk.length).toNat = chunk.length :=
        UInt16.toNat_ofNat_of_lt' (by rw [UInt16.size]; omega)
      have hcopy : copyFromSlice d.roles.pageBuf d.roles.pageByteCounter.toNat
          (d.roles.pageByteCounter.toNat + chunk.length) chunk
            = some (d.roles.pageBuf.copyAt d.roles.pageByteCounter.toNat chunk) :=
        if_pos ⟨by omega, by omega, by omega⟩
      have hsum : addU16 d.roles.pageByteCounter (UInt16.ofNat chunk.length)
          = some (d.roles.pageByteCounter + UInt16.ofNat chunk.length) := if_pos (by omega)
      rw [if_pos hfits, if_pos hfits, hcopy, hsum]
      rfl
    · have hsplit : splitAt chunk (imgPageLen - d.roles.pageByteCounter.toNat)
          = some (chunk.take (imgPageLen - d.roles.pageByteCounter.toNat),
            chunk.drop (imgPageLen - d.roles.pageByteCounter.toNat)) := if_pos (by omega)
      have hhead : copyFromSlice d.roles.pageBuf d.roles.pageByteCounter.toNat d.roles.pageBuf.length
          (chunk.take (imgPageLen - d.roles.pageByteCounter.toNat)) = some (filledPage d.roles chunk) :=
        if_pos ⟨by omega, by omega, by rw [List.length_take]; omega⟩
      have hfull := length_filledPage hpage hcounter (by omega : imgPageLen ≤ _ + chunk.length)
      have htail : copyFromSlice (filledPage d.roles chunk) 0
          (chunk.drop (imgPageLen - d.roles.pageByteCounter.toNat)).length
          (chunk.drop (imgPageLen - d.roles.pageByteCounter.toNat))
            = some ((filledPage d.roles chunk).copyAt 0
              (chunk.drop (imgPageLen - d.roles.pageByteCounter.toNat))) :=
        if_pos ⟨Nat.zero_le _, by rw [hfull, List.length_drop]; omega, rfl⟩
      rw [if_neg hfits, if_neg hfits, if_neg (by omega), hsplit]
      simp only [Option.bind_eq_bind, Option.bind_some]
      rw [hhead]
      simp only [Option.bind_some]
      cases (Effects.flashWrite d.fx d.roles.flashOffset (filledPage d.roles chunk)).1 with
      | false => rfl
      | true =>
        simp only [Bool.not_true, Bool.false_eq_true, if_false]
        rw [htail]
        rfl

theorem processEndChecked_eq (hpage : d.roles.pageBuf.length = imgPageLen)
    (hcounter : d.roles.pageByteCounter.toNat < imgPageLen) : processEndChecked d = some (processEnd d) :=
  if_pos (by omega)

end

section

variable {E : Type} [Effects E] {d : Dfu Client (Traced E)} {chunk : Bytes} {pre ws : List FlashWrite}
  {received : Bytes}

theorem processPayload_writes (d : Dfu Client (Traced E)) (chunk : Bytes) :
    ∃ more, (processPayload d chunk).2.fx.writes = d.fx.writes ++ more := by
  unfold processPayload
  split
  · exact ⟨[], (List.append_nil _).symm⟩
  · dsimp only
    split
    · exact ⟨[], (List.append_nil _).symm⟩
    · split <;> exact ⟨[_], rfl⟩

/-- One chunk: the writes it adds, and what it keeps up if they all work. -/
theorem processPayload_pages (h : Pages d.roles ws received) (hwrites : d.fx.writes = pre ++ ws)
    (hchunk : chunk.length ≤ dfuMaxChunkSize) :
    ∃ more, (processPayload d chunk).2.fx.writes = pre ++ (ws ++ more) ∧
      ((∀ w ∈ more, w.ok = true) → Pages (processPayload d chunk).2.roles (ws ++ more) (received ++ chunk)) := by
  have hlen : imgPageLen = 2048 := rfl
  have hmax : dfuMaxChunkSize = 1024 := rfl
  have hcounter := h.counter
  have hpage := h.page
  unfold processPayload
  by_cases hempty : chunk.length = 0
  · refine ⟨[], ?_, fun _ => ?_⟩
    · rw [if_pos hempty, List.append_nil]
      exact hwrites
    · rw [if_pos hempty, List.append_nil, List.length_eq_zero_iff.mp hempty, List.append_nil]
      exact h
  · rw [if_neg hempty]
    dsimp only
    by_cases hfits : d.roles.pageByteCounter.toNat + chunk.length < imgPageLen
    · refine ⟨[], ?_, fun _ => ?_⟩
      · rw [if_pos hfits, List.append_nil]
        exact hwrites
      · have hcount : (d.roles.pageByteCounter + UInt16.ofNat chunk.length).toNat =
            d.roles.pageByteCounter.toNat + chunk.length := by
          rw [UInt16.toNat_add, UInt16.toNat_ofNat']
          omega
        rw [if_pos hfits, List.append_nil]
        refine ⟨?_, h.offset, h.written, ?_, ?_⟩
        · dsimp only
          rw [hcount]
          exact hfits
        · dsimp only
          rw [hcount, Bytes.take_copyAt chunk (by omega), ← List.append_assoc, h.gathered]
        · exact (Bytes.length_copyAt _ _ _ (by omega)).trans hpage
    · have hfull := length_filledPage hpage hcounter (by omega : imgPageLen ≤ _ + chunk.length)
      have heq := filledPage_eq hpage hcounter (by omega : imgPageLen ≤ _ + chunk.length)
      rw [if_neg hfits]
      refine ⟨[⟨d.roles.flashOffset, filledPage d.roles chunk,
        (Effects.flashWrite d.fx d.roles.flashOffset (filledPage d.roles chunk)).1⟩], ?_, fun hok => ?_⟩
      · rw [← List.append_assoc, ← hwrites]
        split <;> rfl
      · have hdone := hok _ List.mem_cons_self
        dsimp only at hdone
        have htail : (UInt16.ofNat (chunk.drop (imgPageLen - d.roles.pageByteCounter.toNat)).length).toNat =
            (chunk.drop (imgPageLen - d.roles.pageByteCounter.toNat)).length := by
          rw [UInt16.toNat_ofNat', List.length_drop]
          omega
        rw [hdone, if_neg (by simp)]
        refine ⟨?_, ?_, ?_, ?_, ?_⟩
        · dsimp only
          rw [htail, List.length_drop]
          omega
        · have hoffset := h.offset
          dsimp only
          rw [UInt32.toNat_add, UInt32.toNat_ofNat', hlen]
          rw [hlen] at hoffset
          omega
        · dsimp only
          rw [h.written, image_append, image_singleton, List.length_append, hfull, UInt32.ofNat_add]
        · dsimp only
          rw [htail, Bytes.copyAt, List.take_zero, List.nil_append, List.take_left, image_append,
            image_singleton, heq, ← List.append_assoc, h.gathered, List.append_assoc,
            List.take_append_drop]
        · dsimp only
          rw [Bytes.length_copyAt _ _ _ (by rw [hfull, List.length_drop]; omega), hfull]

theorem processPayload_page (hpage : d.roles.pageBuf.length = imgPageLen)
    (hcounter : d.roles.pageByteCounter.toNat < imgPageLen) (hchunk : chunk.length ≤ dfuMaxChunkSize) :
    (processPayload d chunk).2.roles.pageBuf.length = imgPageLen ∧
      (processPayload d chunk).2.roles.pageByteCounter.toNat < imgPageLen := by
  have hlen : imgPageLen = 2048 := rfl
  have hmax : dfuMaxChunkSize = 1024 := rfl
  unfold processPayload
  by_cases hempty : chunk.length = 0
  · rw [if_pos hempty]
    exact ⟨hpage, hcounter⟩
  · rw [if_neg hempty]
    dsimp only
    by_cases hfits : d.roles.pageByteCounter.toNat + chunk.length < imgPageLen
    · rw [if_pos hfits]
      refine ⟨(Bytes.length_copyAt _ _ _ (by omega)).trans hpage, ?_⟩
      dsimp only
      rw [UInt16.toNat_add, UInt16.toNat_ofNat']
      omega
    · have hfull := length_filledPage hpage hcounter (by omega : imgPageLen ≤ _ + chunk.length)
      rw [if_neg hfits]
      by_cases hwrote : (Effects.flashWrite d.fx d.roles.flashOffset (filledPage d.roles chunk)).1 = true
      · rw [if_neg (by simp [hwrote])]
        dsimp only
        rw [Bytes.length_copyAt _ _ _ (by rw [hfull, List.length_drop]; omega), hfull,
          UInt16.toNat_ofNat', List.length_drop]
        omega
      · rw [if_pos (by simpa using hwrote)]
        exact ⟨hfull, Nat.zero_lt_succ _⟩

/-- A run of chunks does not panic, and keeps the pages up as long as the writes work. -/
theorem payloads_pages (chunks : List Bytes) :
    ∀ {d : Dfu Client (Traced E)} {ws : List FlashWrite} {received : Bytes},
      (∀ chunk ∈ chunks, chunk.length ≤ dfuMaxChunkSize) → d.roles.pageBuf.length = imgPageLen →
      d.roles.pageByteCounter.toNat < imgPageLen → d.fx.writes = pre ++ ws →
      ((∀ w ∈ ws, w.ok = true) → Pages d.roles ws received) →
      ∃ d' ws', payloads d chunks = some d' ∧ d'.fx.writes = pre ++ ws' ∧
        d'.roles.pageBuf.length = imgPageLen ∧ d'.roles.pageByteCounter.toNat < imgPageLen ∧
        ((∀ w ∈ ws', w.ok = true) → Pages d'.roles ws' (received ++ chunks.flatten)) := by
  induction chunks with
  | nil =>
    intro d ws received _ hpage hcounter hwrites h
    exact ⟨d, ws, rfl, hwrites, hpage, hcounter, by rwa [List.flatten_nil, List.append_nil]⟩
  | cons chunk chunks ih =>
    intro d ws received hchunks hpage hcounter hwrites h
    have hchunk := hchunks chunk List.mem_cons_self
    obtain ⟨hpage', hcounter'⟩ := processPayload_page hpage hcounter hchunk
    have hstep : payloads d (chunk :: chunks) = payloads (processPayload d chunk).2 chunks := by
      rw [payloads, processPayloadChecked_eq hpage hcounter hchunk]
      rfl
    rw [hstep, List.flatten_cons, ← List.append_assoc]
    obtain ⟨more, hmore⟩ := processPayload_writes d chunk
    have hwrites' : (processPayload d chunk).2.fx.writes = pre ++ (ws ++ more) := by
      rw [hmore, hwrites, List.append_assoc]
    refine ih (fun c hc => hchunks c (List.mem_cons_of_mem _ hc)) hpage' hcounter' hwrites' fun hok => ?_
    obtain ⟨more', hmore', hpages⟩ := processPayload_pages
      (h fun w hw => hok w (List.mem_append_left _ hw)) hwrites hchunk
    rw [hmore, hwrites, List.append_assoc, List.append_cancel_left_eq, List.append_cancel_left_eq] at hmore'
    rw [← hmore'] at hpages
    exact hpages fun w hw => hok w (List.mem_append_right _ hw)

/-- The end writes what is held, in one piece, and nothing if nothing is. -/
theorem processEnd_writes (d : Dfu Client (Traced E)) : (processEnd d).2.fx.writes = d.fx.writes ++
    if d.roles.pageByteCounter.toNat = 0 then []
    else [⟨d.roles.flashOffset, restOf d.roles, (processEnd d).1⟩] := by
  by_cases hempty : d.roles.pageByteCounter = 0
  · have hzero : d.roles.pageByteCounter.toNat = 0 := by rw [hempty]; rfl
    rw [if_pos hzero, List.append_nil]
    simp [processEnd, hempty]
    rfl
  · have hne : d.roles.pageByteCounter.toNat ≠ 0 := fun h => hempty (UInt16.toNat_inj.mp h)
    rw [if_neg hne, restOf]
    simp only [processEnd, if_pos (show d.roles.pageByteCounter ≠ 0 from hempty)]
    cases hok : (Effects.flashWrite d.fx d.roles.flashOffset
        (d.roles.pageBuf.take d.roles.pageByteCounter.toNat)).1 with
    | true =>
      rw [if_pos rfl, ← hok]
      rfl
    | false =>
      rw [if_neg Bool.false_ne_true, ← hok]
      rfl

/-- Any chunks after a restart, and the end of the transfer. -/
theorem chunks_into_pages (d : Dfu Client (Traced E)) (hpage : d.roles.pageBuf.length = imgPageLen)
    {chunks : List Bytes} (hchunks : ∀ chunk ∈ chunks, chunk.length ≤ dfuMaxChunkSize) :
    ∃ d' ws, payloads { d with roles := d.roles.restartTransfer } chunks = some d' ∧
      d'.fx.writes = d.fx.writes ++ ws ∧ ((∀ w ∈ ws, w.ok = true) →
        d'.roles.pageByteCounter.toNat < imgPageLen ∧ d'.roles.flashOffset.toNat % imgPageLen = 0 ∧
        image ws ++ d'.roles.pageBuf.take d'.roles.pageByteCounter.toNat = chunks.flatten ∧
        ∃ ok d'', processEndChecked d' = some (ok, d'') ∧ d''.fx.writes = d'.fx.writes ++
          if d'.roles.pageByteCounter.toNat = 0 then []
          else [⟨d'.roles.flashOffset, d'.roles.pageBuf.take d'.roles.pageByteCounter.toNat, ok⟩]) := by
  obtain ⟨d', ws, hrun, hwrites, hpage', hcounter', hpages⟩ := @payloads_pages _ _ d.fx.writes chunks
    { d with roles := d.roles.restartTransfer } [] [] hchunks hpage (Nat.zero_lt_succ _)
    (List.append_nil _).symm fun _ => pages_restart hpage
  refine ⟨d', ws, hrun, hwrites, fun hok => ?_⟩
  have h := hpages hok
  exact ⟨h.counter, h.offset, h.gathered, (processEnd d').1, (processEnd d').2,
    processEndChecked_eq hpage' hcounter', processEnd_writes d'⟩

end

/-- Two full chunks fill a page, and three bytes are left over. -/
def pageAndThree : List Bytes := [List.replicate 1024 1, List.replicate 1024 2, [7, 8, 9]]

def receiver : Dfu Client (Traced (Answers 0xF2000)) := Dfu.new 1 {} Client.new ⟨Answers.allOk 0xF2000, []⟩

theorem chunks_into_pages_three :
    ∃ d' ws, payloads { receiver with roles := receiver.roles.restartTransfer } pageAndThree = some d' ∧
      d'.fx.writes = receiver.fx.writes ++ ws ∧ ((∀ w ∈ ws, w.ok = true) →
        d'.roles.pageByteCounter.toNat < imgPageLen ∧ d'.roles.flashOffset.toNat % imgPageLen = 0 ∧
        image ws ++ d'.roles.pageBuf.take d'.roles.pageByteCounter.toNat = pageAndThree.flatten ∧
        ∃ ok d'', processEndChecked d' = some (ok, d'') ∧ d''.fx.writes = d'.fx.writes ++
          if d'.roles.pageByteCounter.toNat = 0 then []
          else [⟨d'.roles.flashOffset, d'.roles.pageBuf.take d'.roles.pageByteCounter.toNat, ok⟩]) :=
  chunks_into_pages receiver List.length_replicate (by
    intro chunk h
    rcases List.mem_cons.mp h with rfl | h
    · exact Nat.le_of_eq List.length_replicate
    · rcases List.mem_cons.mp h with rfl | h
      · exact Nat.le_of_eq List.length_replicate
      · rw [List.mem_singleton.mp h]
        exact Nat.le_add_left 3 1021)

end Bristlemouth.Dfu.Client
