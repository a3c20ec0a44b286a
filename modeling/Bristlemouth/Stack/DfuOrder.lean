import Bristlemouth.Dfu.Quiet
import Bristlemouth.Stack.NodeDfu
import Mathlib.Algebra.Order.BigOperators.Group.List

/-!
# The order of a node's DFU transmissions

What the machine sends is handed out once each and in the order it was sent, and
a reset is made only when everything sent before it is out. `next_body` comes to
an end, since only so many steps can follow each other without a body to return.
-/

set_option autoImplicit false

namespace Bristlemouth

open Dfu

/-! ### The outbox -/

namespace Dfu.Outbox

def pushAll (l : List (MessageType × Bytes)) (messages : List DfuMessage) : List (MessageType × Bytes) :=
  messages.foldl (fun l m => (spec l (.push m)).2) l

/-- Nothing is dropped while there is room for it. -/
theorem pushAll_eq {messages : List DfuMessage} (hfits : ∀ m ∈ messages, m.encodedLen ≤ DfuMessage.longestLen) :
    ∀ {l : List (MessageType × Bytes)}, l.length + messages.length ≤ outboxLen →
      pushAll l messages = l ++ messages.map entry := by
  induction messages with
  | nil =>
    intro l _
    exact (List.append_nil l).symm
  | cons m messages ih =>
    intro l hroom
    rw [List.length_cons] at hroom
    have hpush : (spec l (.push m)).2 = l ++ [entry m] := if_pos ⟨by omega, hfits m List.mem_cons_self⟩
    have hlen : (l ++ [entry m]).length = l.length + 1 := by rw [List.length_append, List.length_singleton]
    have hrest := ih (fun m' hm => hfits m' (List.mem_cons_of_mem m hm))
      (show (l ++ [entry m]).length + messages.length ≤ outboxLen by omega)
    rw [pushAll, List.foldl_cons, hpush]
    exact hrest.trans (List.append_assoc ..)

end Dfu.Outbox

/-! ### What acts do to the node's seams -/

/-- The reset asked for. -/
@[simp] def Dfu.Act.reset? : Act → Option Reset
  | setPendingAndReset => some .pending
  | failUpdateAndReset => some .fail
  | _ => none

def Dfu.resets (acts : List Act) : List Reset := acts.filterMap Act.reset?

theorem Dfu.length_resets (acts : List Act) : (resets acts).length = acts.countP Act.isReset := by
  induction acts with
  | nil => rfl
  | cons a acts ih =>
    rw [resets, List.filterMap_cons, List.countP_cons, ← ih]
    cases a <;> rfl

namespace Fx

variable {C D : Type} [DfuSlot D] [Configuration C]

omit [DfuSlot D] [Configuration C] in
theorem pushFinished_kept (fx : Fx C D) (f : DfuFinished) :
    (fx.pushFinished f).sent = fx.sent ∧ (fx.pushFinished f).asked = fx.asked ∧
      (fx.pushFinished f).outbox = fx.outbox ∧ (fx.pushFinished f).reset = fx.reset := by
  rw [pushFinished]
  split <;> exact ⟨rfl, rfl, rfl, rfl⟩

theorem onFx_eq (fx : Fx C D) (a : Act) :
    (a.onFx fx).sent = fx.sent ++ a.sent?.toList ∧ (a.onFx fx).asked = fx.asked ++ a.reset?.toList ∧
      (a.onFx fx).outbox = Outbox.pushAll fx.outbox a.sent?.toList ∧ (a.onFx fx).reset = a.reset?.or fx.reset := by
  cases a with
  | updateFinished success err nodeId =>
    obtain ⟨hsent, hasked, houtbox, hreset⟩ := fx.pushFinished_kept ⟨success, err, nodeId⟩
    exact ⟨hsent.trans (List.append_nil _).symm, hasked.trans (List.append_nil _).symm, houtbox, hreset⟩
  | send message => exact ⟨rfl, (List.append_nil _).symm, rfl, rfl⟩
  | setPendingAndReset | failUpdateAndReset => exact ⟨(List.append_nil _).symm, rfl, rfl, rfl⟩
  | _ => exact ⟨(List.append_nil _).symm, (List.append_nil _).symm, rfl, rfl⟩

theorem foldl_onFx (acts : List Act) : ∀ fx : Fx C D,
    (acts.foldl Act.onFx fx).sent = fx.sent ++ sends acts ∧ (acts.foldl Act.onFx fx).asked = fx.asked ++ resets acts ∧
      (acts.foldl Act.onFx fx).outbox = Outbox.pushAll fx.outbox (sends acts) ∧
      (acts.foldl Act.onFx fx).reset = (resets acts).getLast?.or fx.reset := by
  induction acts with
  | nil => exact fun fx => ⟨(List.append_nil _).symm, (List.append_nil _).symm, rfl, rfl⟩
  | cons a acts ih =>
    intro fx
    obtain ⟨hsent, hasked, houtbox, hreset⟩ := fx.onFx_eq a
    obtain ⟨hsents, haskeds, houtboxes, hresets⟩ := ih (a.onFx fx)
    have hcons : resets (a :: acts) = a.reset?.toList ++ resets acts := by
      rw [resets, List.filterMap_cons]
      cases a.reset? <;> rfl
    rw [List.foldl_cons, sends_cons, hcons]
    refine ⟨?_, ?_, ?_, ?_⟩
    · rw [hsents, hsent, List.append_assoc]
    · rw [haskeds, hasked, List.append_assoc]
    · rw [houtboxes, houtbox]
      exact (List.foldl_append ..).symm
    · rw [hresets, hreset]
      cases a.reset? with
      | none => rfl
      | some r => cases h : (resets acts).getLast? <;> simp [List.getLast?_cons, h]

end Fx

/-! ### The history -/

namespace Happening

def sent : Happening → List DfuMessage
  | stepped _ messages _ | initiated messages _ => messages
  | _ => []

def asked : Happening → List Reset
  | stepped _ _ resets | initiated _ resets => resets
  | _ => []

def out : Happening → List (MessageType × Bytes)
  | returned body => [body]
  | _ => []

def resets : Happening → List Reset
  | made reset _ => [reset]
  | _ => []

/-- What no-init RAM was found or left to hold. -/
def kept : Happening → Option RebootInfo
  | loaded info | stored info => some info
  | _ => none

end Happening

/-- What a node's DFU did, against what is still waiting to go out and to be made. -/
structure InOrder (history : List Happening) (outbox : List (MessageType × Bytes)) (reset : Option Reset)
    (stored : RebootInfo) : Prop where
  /-- Each body is returned once, in the order they were sent, and none is lost. -/
  returned : (history.flatMap Happening.sent).map Outbox.entry = history.flatMap Happening.out ++ outbox
  /-- The machine is stepped with nothing waiting, and sends no more than fits. -/
  stepped : ∀ waiting sent asked, .stepped waiting sent asked ∈ history → waiting = 0 ∧ sent.length ≤ outboxLen
  initiated : ∀ sent asked, .initiated sent asked ∈ history → sent = [] ∧ asked = []
  /-- Each reset asked for is made once. -/
  resets : history.flatMap Happening.asked = history.flatMap Happening.resets ++ reset.toList
  kept : (history.filterMap Happening.kept).getLast? = some stored
  /-- A reset is made when everything sent before it has been returned, and what no-init RAM then holds is
  the machine's reboot info. -/
  made : ∀ before reset info, before ++ [.made reset info] <+: history →
    (before.flatMap Happening.sent).map Outbox.entry = before.flatMap Happening.out ∧
      (before.filterMap Happening.kept).getLast? = some info

namespace InOrder

variable {history : List Happening} {outbox : List (MessageType × Bytes)} {reset : Option Reset} {stored : RebootInfo}

theorem new (info : RebootInfo) : InOrder [.loaded info] [] none info where
  returned := rfl
  stepped _ _ _ h := by cases List.mem_singleton.mp h
  initiated _ _ h := by cases List.mem_singleton.mp h
  resets := rfl
  kept := rfl
  made before r info h := by
    rcases List.prefix_concat_iff.mp (show _ <+: [] ++ [_] from h) with heq | hnil
    · obtain ⟨-, hlast⟩ := List.append_inj' heq rfl
      cases List.singleton_inj.mp hlast
    · exact absurd (List.prefix_nil.mp hnil) (by simp)

/-- One more happening, which hands out what was waiting or leaves it, and makes the reset asked for or leaves it. -/
theorem concat (h : InOrder history outbox reset stored) {did : Happening} {outbox' : List (MessageType × Bytes)}
    {reset' : Option Reset} {stored' : RebootInfo} (hout : outbox ++ did.sent.map Outbox.entry = did.out ++ outbox')
    (hreset : reset.toList ++ did.asked = did.resets ++ reset'.toList)
    (hkept : did.kept.or (some stored) = some stored')
    (hstepped : ∀ waiting sent asked, did = .stepped waiting sent asked → waiting = 0 ∧ sent.length ≤ outboxLen)
    (hinitiated : ∀ sent asked, did = .initiated sent asked → sent = [] ∧ asked = [])
    (hmade : ∀ r info, did = .made r info → outbox = [] ∧ info = stored) :
    InOrder (history ++ [did]) outbox' reset' stored' where
  returned := by
    rw [List.flatMap_append, List.flatMap_append, List.map_append, h.returned, List.append_assoc,
      List.flatMap_singleton, List.flatMap_singleton, hout, List.append_assoc]
  stepped waiting sent asked hmem := by
    rcases List.mem_append.mp hmem with hmem | hmem
    · exact h.stepped waiting sent asked hmem
    · exact hstepped waiting sent asked (List.mem_singleton.mp hmem).symm
  initiated sent asked hmem := by
    rcases List.mem_append.mp hmem with hmem | hmem
    · exact h.initiated sent asked hmem
    · exact hinitiated sent asked (List.mem_singleton.mp hmem).symm
  resets := by
    rw [List.flatMap_append, List.flatMap_append, h.resets, List.append_assoc, List.flatMap_singleton,
      List.flatMap_singleton, hreset, List.append_assoc]
  kept := by
    rw [List.filterMap_append, List.getLast?_append, h.kept, ← hkept, List.filterMap_cons, List.filterMap_nil]
    cases did.kept <;> rfl
  made before r info hprefix := by
    rcases List.prefix_concat_iff.mp hprefix with heq | hprefix
    · obtain ⟨rfl, hlast⟩ := List.append_inj' heq rfl
      obtain ⟨hnil, rfl⟩ := hmade r info (List.singleton_inj.mp hlast).symm
      have hreturned := h.returned
      rw [hnil, List.append_nil] at hreturned
      exact ⟨hreturned, h.kept⟩
    · exact h.made before r info hprefix

theorem pop {body : MessageType × Bytes} (h : InOrder history (body :: outbox) reset stored) :
    InOrder (history ++ [.returned body]) outbox reset stored :=
  h.concat (List.append_nil _) (List.append_nil _) rfl (by simp) (by simp) (by simp)

theorem store (h : InOrder history outbox reset stored) (info : RebootInfo) :
    InOrder (history ++ [.stored info]) outbox reset info :=
  h.concat (List.append_nil _) (List.append_nil _) rfl (by simp) (by simp) (by simp)

theorem initiate (h : InOrder history outbox reset stored) :
    InOrder (history ++ [.initiated [] []]) outbox reset stored :=
  h.concat (List.append_nil _) (List.append_nil _) rfl (by simp) (by simp) (by simp)

/-- A step with nothing waiting and no reset to make. -/
theorem step (h : InOrder history [] none stored) {sent : List DfuMessage} {asked : List Reset}
    {outbox' : List (MessageType × Bytes)} {reset' : Option Reset} (hfew : sent.length ≤ outboxLen)
    (hwaiting : outbox' = sent.map Outbox.entry) (hreset : reset'.toList = asked) :
    InOrder (history ++ [.stepped 0 sent asked]) outbox' reset' stored := by
  refine h.concat hwaiting.symm hreset.symm rfl ?_ (by simp) (by simp)
  intro waiting sent' asked' hdid
  cases hdid
  exact ⟨rfl, hfew⟩

theorem makeReset {r : Reset} (h : InOrder history [] (some r) stored) :
    InOrder (history ++ [.made r stored]) [] none stored := by
  refine h.concat rfl rfl rfl (by simp) (by simp) ?_
  intro r' info hdid
  cases hdid
  exact ⟨rfl, rfl⟩

end InOrder

/-! ### The turns of `next_body` -/

theorem Dfu.EventType.work_le (kind : EventType) : kind.work ≤ 5 := by cases kind <;> decide

theorem Dfu.State.entryWork_le (state : State) : state.entryWork ≤ 3 := by cases state <;> decide

theorem Dfu.Core.left_le (c : Core) : c.left ≤ 37 := by
  have hqueued : c.queued ≤ c.queue.toList.length * 5 := by
    have hsum := List.sum_le_card_nsmul (c.queue.toList.map fun e => e.kind.work) 5 fun n hn => by
      obtain ⟨e, -, rfl⟩ := List.mem_map.mp hn
      exact e.kind.work_le
    rwa [List.length_map, nsmul_eq_mul] at hsum
  have hlen : c.queue.toList.length ≤ 5 := by
    rw [RingQueue.length_toList]
    exact c.queue.len_le
  have hchunk := c.timed_le .chunk
  have hack := c.timed_le .ack
  have hupdate := c.timed_le .update
  have hpending : c.pending.elim 0 State.entryWork ≤ 3 := by
    cases c.pending with
    | none => exact Nat.zero_le _
    | some state => exact state.entryWork_le
  rw [Core.left, Core.ahead, Core.timing]
  simp only [timerWork] at hchunk hack hupdate
  omega

namespace NodeDfu

variable {C D : Type}

/-- A node's DFU between two turns of the loop. -/
structure Running (n : NodeDfu D) : Prop where
  order : InOrder n.history n.outbox n.reset n.stored
  settling : n.machine.core.Settling

def outs (n : NodeDfu D) : List (MessageType × Bytes) := n.history.flatMap Happening.out

/-- What storing a changed reboot info leaves alone. -/
structure Persisted (n n' : NodeDfu D) : Prop where
  running : Running n'
  stored : n'.stored = n.machine.core.rebootInfo
  machine : n'.machine = n.machine
  outbox : n'.outbox = n.outbox
  reset : n'.reset = n.reset
  outs : n'.outs = n.outs

theorem Running.persist [NoInitRam D] {n : NodeDfu D} (h : Running n) : Persisted n n.persist := by
  unfold NodeDfu.persist
  dsimp only
  split
  · refine ⟨⟨h.order.store _, h.settling⟩, rfl, rfl, rfl, rfl, ?_⟩
    simp [NodeDfu.outs, Happening.out]
  · rename_i hsame
    exact ⟨h, (not_not.mp hsame).symm, rfl, rfl, rfl, rfl⟩

section Step

variable [DfuSlot D] [NoInitRam D] [Configuration C] {n : NodeDfu D} {gitSha nowMs : UInt32} {config : C}

/-- What one step of the machine leaves: it is the last, or there is something to return, or less to be run. -/
structure Stepped (n n' : NodeDfu D) (ran : Bool) : Prop where
  running : Running n'
  outs : n'.outs = n.outs
  last : ran = false → n'.outbox = [] ∧ n'.reset = none
  spends : ran = true → n'.outbox = [] → n'.machine.core.left < n.machine.core.left

omit [DfuSlot D] [Configuration C] in
theorem Running.leaveFx (h : Running n) (hempty : n.outbox = []) (hreset : n.reset = none)
    {d : Dfu ClientHost (Fx C D)} (hsettling : d.core.Settling) (hfew : d.fx.sent.length ≤ outboxLen)
    (hwaiting : d.fx.outbox = d.fx.sent.map Outbox.entry) (hasked : d.fx.reset.toList = d.fx.asked) :
    Persisted (n.leaveFx d (.stepped n.outbox.length d.fx.sent d.fx.asked))
      (n.leaveFx d (.stepped n.outbox.length d.fx.sent d.fx.asked)).persist := by
  have horder := h.order
  rw [hreset, hempty] at horder
  rw [hempty]
  have hrunning : Running (n.leaveFx d (.stepped 0 d.fx.sent d.fx.asked)) :=
    ⟨horder.step hfew hwaiting hasked, hsettling⟩
  exact hrunning.persist

variable (gitSha nowMs config)

theorem Running.stepMachine (h : Running n) (hempty : n.outbox = []) (hreset : n.reset = none) :
    Stepped n (n.stepMachine gitSha nowMs config).2.1 (n.stepMachine gitSha nowMs config).1 := by
  have hsettling : ((n.withFx config gitSha).step nowMs).2.core.Settling :=
    apply_settling (d := n.withFx config gitSha) h.settling (.step nowMs)
  have houts : ∀ d : Dfu ClientHost (Fx C D),
      (n.leaveFx d (.stepped n.outbox.length d.fx.sent d.fx.asked)).outs = n.outs := by
    intro d
    simp [NodeDfu.outs, NodeDfu.leaveFx, Happening.out]
  cases hbegin : (n.withFx config gitSha).begin nowMs with
  | none =>
    have hstep := step_of_begin_none hbegin
    have hpersisted := h.leaveFx hempty hreset hsettling (by rw [hstep]; exact Nat.zero_le _)
      (by rw [hstep]; exact hempty) (by rw [hstep]; exact congrArg Option.toList hreset)
    refine ⟨hpersisted.running, hpersisted.outs.trans (houts _), fun _ => ⟨?_, ?_⟩, fun hran => ?_⟩
    · exact hpersisted.outbox.trans (by rw [hstep]; exact hempty)
    · exact hpersisted.reset.trans (by rw [hstep]; exact hreset)
    · rw [NodeDfu.stepMachine, hstep] at hran
      cases hran
  | some begun =>
    obtain ⟨event, d₀⟩ := begun
    obtain ⟨acts, hacts⟩ := step_outgoing (d := n.withFx config gitSha) h.settling hbegin
    obtain ⟨hsent, hasked, houtbox, hresets⟩ := Fx.foldl_onFx acts (n.withFx config gitSha).fx
    rw [← hacts.fx] at hsent hasked houtbox hresets
    have hfew : (sends acts).length ≤ outboxLen := hacts.few.trans (by decide)
    have hwaiting : ((n.withFx config gitSha).step nowMs).2.fx.outbox = (sends acts).map Outbox.entry := by
      rw [houtbox, show (n.withFx config gitSha).fx.outbox = [] from hempty]
      exact Outbox.pushAll_eq hacts.fits ((Nat.zero_add _).trans_le hfew)
    have hone : (resets acts).length ≤ 1 := (length_resets acts).trans_le hacts.resets
    have hreset' : ((n.withFx config gitSha).step nowMs).2.fx.reset.toList = resets acts := by
      rw [hresets, show (n.withFx config gitSha).fx.reset = none from hreset, Option.or_none]
      cases hlist : resets acts with
      | nil => rfl
      | cons r rest =>
        rw [hlist, List.length_cons] at hone
        rw [List.length_eq_zero_iff.mp (show rest.length = 0 by omega)]
        rfl
    have hpersisted := h.leaveFx hempty hreset hsettling (by rw [hsent]; exact hfew) (by rw [hwaiting, hsent]; rfl)
      (by rw [hreset', hasked]; rfl)
    refine ⟨hpersisted.running, hpersisted.outs.trans (houts _), fun hran => ?_, fun _ hquiet => ?_⟩
    · rw [NodeDfu.stepMachine, step_of_begin hbegin] at hran
      cases hran
    · have hnone : sends acts = [] :=
        List.map_eq_nil_iff.mp (hwaiting.symm.trans (hpersisted.outbox.symm.trans hquiet))
      have hleft := congrArg (fun m => m.core.left) hpersisted.machine
      exact hleft.trans_lt (hacts.spends hnone)

/-- How many turns the loop may still take. A reset to make is one more, as is a body to return at the end. -/
def turnsNeeded (n : NodeDfu D) : Nat :=
  if n.outbox = [] then 2 * n.machine.core.left + n.reset.toList.length + 2 else 1

/-- What the loop has come to: a body handed out, or none and nothing waiting. -/
structure Returned (n n' : NodeDfu D) (result : Option (MessageType × Bytes)) : Prop where
  running : Running n'
  outs : n'.outs = n.outs ++ result.toList
  idle : result = none → n'.outbox = [] ∧ n'.reset = none

omit [NoInitRam D] [Configuration C] in
theorem Running.makeReset (h : Running n) (hempty : n.outbox = []) {r : Reset} (hreset : n.reset = some r)
    (hstored : n.stored = n.machine.core.rebootInfo) :
    Running (({ n with reset := none } : NodeDfu D).makeReset r) := by
  have horder := h.order
  rw [hempty, hreset] at horder
  have hmade := horder.makeReset
  refine ⟨?_, h.settling⟩
  change InOrder (n.history ++ [.made r n.machine.core.rebootInfo]) n.outbox none n.stored
  rw [← hstored, hempty]
  exact hmade

omit [Configuration C] in
/-- The turn that makes a reset stores a changed reboot info first. -/
theorem Running.resetTurn (h : Running n) (hempty : n.outbox = []) {r : Reset} (hreset : n.reset = some r) :
    Running (({ n with reset := none } : NodeDfu D).persist.makeReset r) ∧
      (({ n with reset := none } : NodeDfu D).persist.makeReset r).outs = n.outs ∧
      (({ n with reset := none } : NodeDfu D).persist.makeReset r).turnsNeeded + 1 = n.turnsNeeded := by
  have hpersisted := h.persist
  have hcommute : ({ n with reset := none } : NodeDfu D).persist = { n.persist with reset := none } := by
    unfold NodeDfu.persist
    dsimp only
    split <;> rfl
  have hlen : n.persist.outbox = [] := hpersisted.outbox.trans hempty
  rw [hcommute]
  refine ⟨?_, ?_, ?_⟩
  · exact hpersisted.running.makeReset hlen (hpersisted.reset.trans hreset)
      (by rw [hpersisted.machine, hpersisted.stored])
  · rw [← hpersisted.outs]
    simp [NodeDfu.outs, NodeDfu.makeReset, Happening.out]
  · have hbefore : n.turnsNeeded = 2 * n.machine.core.left + 1 + 2 := by
      rw [turnsNeeded, if_pos hempty, hreset]
      rfl
    have hafter : (({ n.persist with reset := none } : NodeDfu D).makeReset r).turnsNeeded =
        2 * n.persist.machine.core.left + 0 + 2 := if_pos hlen
    rw [hafter, hbefore, hpersisted.machine]

theorem nextBodyLoop_returns (turns : Nat) : ∀ (n : NodeDfu D) (config : C), Running n → n.turnsNeeded ≤ turns →
    ∃ result n' config', nextBodyLoop gitSha nowMs turns n config = some (result, n', config') ∧
      Returned n n' result := by
  induction turns with
  | zero =>
    intro n config _ hturns
    rw [turnsNeeded] at hturns
    split at hturns <;> omega
  | succ turns ih =>
    intro n config h hturns
    rw [nextBodyLoop]
    cases hempty : n.outbox with
    | cons body outbox =>
      have horder := h.order
      rw [hempty] at horder
      refine ⟨some body, _, config, rfl, ⟨horder.pop, h.settling⟩, ?_, by simp⟩
      simp [NodeDfu.outs, Happening.out]
    | nil =>
      rw [turnsNeeded, if_pos hempty] at hturns
      dsimp only
      cases hreset : n.reset with
      | some r =>
        rw [hreset] at hturns
        obtain ⟨hrunning, houts, hturn⟩ := h.resetTurn hempty hreset
        have hneeded : n.turnsNeeded = 2 * n.machine.core.left + 1 + 2 := by
          rw [turnsNeeded, if_pos hempty, hreset]
          rfl
        simp only [Option.toList, List.length_singleton] at hturns
        obtain ⟨result, n', config', hloop, hreturned⟩ := ih _ config hrunning (by omega)
        refine ⟨result, n', config', ?_, hreturned.running, by rw [hreturned.outs, houts], hreturned.idle⟩
        rw [← hempty]
        exact hloop
      | none =>
        have hstepped := h.stepMachine gitSha nowMs config hempty hreset
        rw [hreset] at hturns
        simp only [Option.toList, List.length_nil] at hturns
        dsimp only
        split
        · rename_i hends
          simp only [Bool.and_eq_true, List.isEmpty_iff, Option.isNone_iff_eq_none] at hends
          exact ⟨none, _, _, rfl, hstepped.running, hstepped.outs.trans (List.append_nil _).symm,
            fun _ => ⟨hends.1.2, hends.2⟩⟩
        · rename_i hgoes
          have hneeded : (n.stepMachine gitSha nowMs config).2.1.turnsNeeded ≤ turns := by
            rw [turnsNeeded]
            split
            · rename_i hquiet
              cases hran : (n.stepMachine gitSha nowMs config).1 with
              | false =>
                obtain ⟨hnil, hnone⟩ := hstepped.last hran
                exact absurd (by simp [hran, hnil, hnone]) hgoes
              | true =>
                have hless := hstepped.spends hran hquiet
                have hone : (n.stepMachine gitSha nowMs config).2.1.reset.toList.length ≤ 1 := by
                  cases (n.stepMachine gitSha nowMs config).2.1.reset <;> simp
                omega
            · omega
          obtain ⟨result, n', config', hloop, hreturned⟩ := ih (n.stepMachine gitSha nowMs config).2.1
            (n.stepMachine gitSha nowMs config).2.2 hstepped.running hneeded
          exact ⟨result, n', config', hloop, hreturned.running, by rw [hreturned.outs, hstepped.outs], hreturned.idle⟩

theorem Running.nextBody (h : Running n) :
    ∃ result n' config', n.nextBody gitSha nowMs config = some (result, n', config') ∧ Returned n n' result := by
  apply nextBodyLoop_returns gitSha nowMs maxTurns n config h
  have hleft := n.machine.core.left_le
  have hone : n.reset.toList.length ≤ 1 := by cases n.reset <;> simp
  rw [turnsNeeded, maxTurns]
  split <;> omega

/-! ### Runs -/

omit [DfuSlot D] [NoInitRam D] [Configuration C] in
/-- A call between steps that sends nothing and asks for nothing. -/
theorem Running.leaveQuiet (h : Running n) {d : Dfu ClientHost (Fx C D)} (hsettling : d.core.Settling)
    (hsent : d.fx.sent = []) (hasked : d.fx.asked = []) (houtbox : d.fx.outbox = n.outbox)
    (hreset : d.fx.reset = n.reset) :
    Running (n.leaveFx d (.initiated d.fx.sent d.fx.asked)) := by
  refine ⟨?_, hsettling⟩
  change InOrder (n.history ++ [.initiated d.fx.sent d.fx.asked]) d.fx.outbox d.fx.reset n.stored
  rw [hsent, hasked, houtbox, hreset]
  exact h.order.initiate

omit [NoInitRam D] in
theorem Running.initiateUpdate (h : Running n) (request : HostRequest) :
    Running (n.initiateUpdate config gitSha request).2.1 := by
  have hstood := stood (n.withFx config gitSha)
    (i := .initiateUpdate request.info request.dstNodeId request.notify request.timeoutMs request.internal) rfl
  have hsettling := still_settling (d := n.withFx config gitSha) h.settling
    (i := .initiateUpdate request.info request.dstNodeId request.notify request.timeoutMs request.internal) rfl
  simp only [Dfu.apply] at hstood hsettling
  unfold NodeDfu.initiateUpdate
  dsimp only
  generalize ((n.withFx config gitSha).initiateUpdate request.info request.dstNodeId request.notify request.timeoutMs
    request.internal).2 = d at hstood hsettling ⊢
  cases hstood with
  | refused dstNodeId =>
    obtain ⟨hsent, hasked, houtbox, hreset⟩ :=
      (n.withFx config gitSha).fx.pushFinished_kept ⟨false, .inProgress, dstNodeId⟩
    exact h.leaveQuiet hsettling hsent hasked houtbox hreset
  | _ => exact h.leaveQuiet hsettling rfl rfl rfl rfl

theorem onMessage_settling {m : Dfu ClientHost Unit} (h : m.core.Settling) (body : Bytes) :
    (m.onMessage body).2.core.Settling := by
  rw [Dfu.onMessage]
  split
  · exact h
  split
  · exact h
  split
  · exact h
  split
  · exact h
  split
  · exact h
  split <;> exact h

theorem Running.apply (h : Running n) (call : Call C D) : ∃ n', n.apply call = some n' ∧ Running n' := by
  cases call with
  | onMessage body => exact ⟨_, rfl, h.order, onMessage_settling h.settling body⟩
  | initiateUpdate config gitSha request => exact ⟨_, rfl, h.initiateUpdate gitSha config request⟩
  | nextBody gitSha nowMs config =>
    obtain ⟨result, n', config', hnext, hreturned⟩ := h.nextBody gitSha nowMs config
    exact ⟨n', by rw [NodeDfu.apply, hnext]; rfl, hreturned.running⟩
  | hostQueueData data => exact ⟨_, rfl, h.order, h.settling⟩
  | takeUpdateFinished => exact ⟨_, rfl, h.order, h.settling⟩
  | slotMut change => exact ⟨_, rfl, h.order, h.settling⟩

theorem Running.runs (calls : List (Call C D)) :
    ∀ {n : NodeDfu D}, Running n → ∃ n', n.runs calls = some n' ∧ Running n' := by
  induction calls with
  | nil => exact fun h => ⟨_, rfl, h⟩
  | cons call calls ih =>
    intro n h
    obtain ⟨n₁, happly, h₁⟩ := h.apply call
    obtain ⟨n', hruns, h'⟩ := ih h₁
    refine ⟨n', ?_, h'⟩
    rw [NodeDfu.runs, List.foldlM_cons, happly]
    exact hruns

end Step

end NodeDfu

end Bristlemouth
