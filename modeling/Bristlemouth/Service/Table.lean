import Mathlib.Data.List.GetD
import Mathlib.Data.List.InsertIdx
import Bristlemouth.Lib.FixedArray
import Bristlemouth.Lib.KeyedList
import Bristlemouth.Wire.Le

/-!
# Service dispatch

`service/table.rs`: services by name in registration order, and the walk that finds the one a request is
for. The walk compares as `strncmp` does and stops at the first match. Over names of which none is a prefix
of another that is the service whose request topic it is.
-/

set_option autoImplicit false

namespace Bristlemouth

open FixedArray

/-- `/req` -/
def requestSuffix : Bytes := [0x2F, 0x72, 0x65, 0x71]

structure RequestHeader where
  id : UInt32
  dataSize : UInt32
deriving DecidableEq

def RequestHeader.len : Nat := 8

def RequestHeader.decode (body : Bytes) : Except BmWireError RequestHeader := do
  let b ← lePrefix RequestHeader.len body
  return { id := u32At b 0, dataSize := u32At b 4 }

namespace Service

/-- The buffer with `service` and `suffix` at its start, and their length. -/
def topic (out service suffix : Bytes) : Except BmWireError (Bytes × Nat) :=
  let len := service.length + suffix.length
  if out.length < len then .error .truncated
  else .ok ((out.copyAt 0 service).copyAt service.length suffix, len)

/-- The loop of `strncmp_eq`, from byte `i` on. -/
def strncmpEqFrom (bAt : Nat → Option UInt8) : Nat → Bytes → Except Unit Bool
  | _, [] => .ok true
  | i, x :: a =>
    match bAt i with
    | none => .error ()
    | some y =>
      if x ≠ y then .ok false
      else if x = 0 then .ok true
      else strncmpEqFrom bAt (i + 1) a

def strncmpEq (a : Bytes) (n : Nat) (bAt : Nat → Option UInt8) : Except Unit Bool :=
  strncmpEqFrom bAt 0 (a.take n)

/-- What a publication leads to. -/
inductive Lookup (H : Type) where
  | noService
  | overRead (index : Nat)
  | shortRequest (index : Nat)
  | lengthMismatch (index : Nat)
  | topicMismatch (index : Nat)
  | call (index : Nat) (name : Bytes) (handler : H) (header : RequestHeader) (data : Bytes)

end Service

/-- One service: `name` is an array of `NAME` bytes, of which the first `len` are in use. -/
structure Service (H : Type) where
  name : Bytes
  len : Nat
  handler : H

def Service.held {H : Type} (s : Service H) : Bytes := s.name.take s.len

structure ServiceTable (H : Type) where
  services : List (Option (Service H))
  len : Nat

namespace ServiceTable

open Service

variable {H : Type}

def new (N : Nat) : ServiceTable H := ⟨List.replicate N none, 0⟩

/-- `self.services[..self.len].iter().flatten()` -/
def inUse (t : ServiceTable H) : List (Service H) := (t.services.take t.len).filterMap id

/-- The names and handlers in list order. -/
def listing (t : ServiceTable H) : List (Bytes × H) := t.inUse.map fun s => (s.held, s.handler)

/-- The table afterwards, and whether the service was added to it. -/
def add (NAME : Nat) (t : ServiceTable H) (name : Bytes) (handler : H) : ServiceTable H × Bool :=
  if t.len = t.services.length ∨ NAME < name.length then (t, false)
  else
    let held := Bytes.copyAt (List.replicate NAME 0) 0 name
    ({ services := t.services.set t.len (some ⟨held, name.length, handler⟩), len := t.len + 1 }, true)

/-- The name of the service reads as NUL past its array. -/
def prefixes (name : Bytes) (s : Service H) : Bool :=
  match strncmpEq name name.length fun i => some (s.name.getD i 0) with
  | .ok found => found
  | .error () => false

/-- The table afterwards, and whether a service was removed from it. -/
def remove (t : ServiceTable H) (name : Bytes) : ServiceTable H × Bool :=
  match t.inUse.findIdx? (prefixes name) with
  | none => (t, false)
  | some index =>
    ({ services := (rotateLeft t.services index t.len).set (t.len - 1) none, len := t.len - 1 }, true)

/-- The topic and, past it, the data. -/
def hay (topic data : Bytes) (i : Nat) : Option UInt8 :=
  match topic[i]? with
  | some y => some y
  | none => data[i - topic.length]?

/-- The walk from service `index` on. -/
def walk (topic data : Bytes) : Nat → List (Service H) → Lookup H
  | _, [] => .noService
  | index, s :: rest =>
    let name := s.held
    match strncmpEq name name.length (hay topic data) with
    | .error () => .overRead index
    | .ok false => walk topic data (index + 1) rest
    | .ok true =>
      match RequestHeader.decode data with
      | .error _ => .shortRequest index
      | .ok header =>
        if data.length ≠ RequestHeader.len + header.dataSize.toNat then .lengthMismatch index
        else if topic.length ≠ name.length + requestSuffix.length then .topicMismatch index
        else .call index name s.handler header (data.drop RequestHeader.len)

def lookup (t : ServiceTable H) (topic data : Bytes) : Lookup H := walk topic data 0 t.inUse

end ServiceTable

/-! ### The comparison -/

namespace Service

variable {a b : Bytes} {bAt : Nat → Option UInt8}

/-- Without a NUL in it, a name matches what it is a prefix of. -/
theorem strncmpEqFrom_prefix (hnul : 0 ∉ a) (i : Nat) (h : ∀ j < a.length, bAt (i + j) = a[j]?) :
    strncmpEqFrom bAt i a = .ok true := by
  induction a generalizing i with
  | nil => rfl
  | cons x a ih =>
    rw [List.mem_cons, not_or] at hnul
    have hfirst : bAt i = some x := h 0 (Nat.zero_lt_succ _)
    rw [strncmpEqFrom, hfirst]
    simp only [ne_eq, not_true_eq_false, if_false]
    rw [if_neg (Ne.symm hnul.1)]
    refine ih hnul.2 (i + 1) fun j hj => ?_
    have hnext := h (j + 1) (Nat.succ_lt_succ hj)
    rwa [Nat.add_right_comm, Nat.add_assoc]

/-- A name that differs where both can be read does not match, and nothing is read past the difference. -/
theorem strncmpEqFrom_differs (hnul : 0 ∉ a) (i : Nat) {d : Nat} (hd : d < a.length)
    (hsame : ∀ j < d, bAt (i + j) = a[j]?) {y : UInt8} (hy : bAt (i + d) = some y) (hne : a[d]? ≠ some y) :
    strncmpEqFrom bAt i a = .ok false := by
  induction a generalizing i d with
  | nil => cases hd
  | cons x a ih =>
    rw [List.mem_cons, not_or] at hnul
    rcases d with _ | d
    · rw [Nat.add_zero] at hy
      rw [strncmpEqFrom, hy]
      simp only
      rw [if_pos]
      intro heq
      exact hne (congrArg some heq)
    · have hfirst : bAt i = some x := hsame 0 (Nat.zero_lt_succ d)
      rw [strncmpEqFrom, hfirst]
      simp only [ne_eq, not_true_eq_false, if_false]
      rw [if_neg (Ne.symm hnul.1)]
      refine ih hnul.2 (i + 1) (Nat.lt_of_succ_lt_succ hd) (fun j hj => ?_) ?_ hne
      · have hnext := hsame (j + 1) (Nat.succ_lt_succ hj)
        rwa [Nat.add_right_comm, Nat.add_assoc]
      · rwa [Nat.add_right_comm, Nat.add_assoc]

/-- A match reads the name itself. -/
theorem strncmpEqFrom_ok_true (hnul : 0 ∉ a) {i : Nat} (h : strncmpEqFrom bAt i a = .ok true) :
    ∀ j < a.length, bAt (i + j) = a[j]? := by
  induction a generalizing i with
  | nil => exact fun j hj => absurd hj (Nat.not_lt_zero j)
  | cons x a ih =>
    rw [List.mem_cons, not_or] at hnul
    rw [strncmpEqFrom] at h
    rcases hy : bAt i with _ | y
    · rw [hy] at h
      cases h
    · rw [hy] at h
      simp only [Ne.symm hnul.1, if_false] at h
      by_cases hne : x ≠ y
      · rw [if_pos hne] at h
        cases h
      rw [if_neg hne] at h
      intro j hj
      rcases j with _ | j
      · rw [Nat.add_zero, hy, List.getElem?_cons_zero, not_not.mp hne]
      · have hnext := ih hnul.2 h j (Nat.lt_of_succ_lt_succ hj)
        rwa [Nat.add_right_comm, Nat.add_assoc] at hnext

/-- Two strings of which neither is a prefix of the other differ at a place both have. -/
theorem exists_differs (hab : ¬ a <+: b) (hba : ¬ b <+: a) :
    ∃ d, d < a.length ∧ d < b.length ∧ (∀ j < d, b[j]? = a[j]?) ∧ a[d]? ≠ b[d]? := by
  induction a generalizing b with
  | nil => exact absurd (List.nil_prefix) hab
  | cons x a ih =>
    rcases b with _ | ⟨y, b⟩
    · exact absurd (List.nil_prefix) hba
    · by_cases hxy : x = y
      · subst hxy
        rw [List.cons_prefix_cons] at hab hba
        obtain ⟨d, hda, hdb, hsame, hne⟩ := ih (fun h => hab ⟨rfl, h⟩) (fun h => hba ⟨rfl, h⟩)
        refine ⟨d + 1, Nat.succ_lt_succ hda, Nat.succ_lt_succ hdb, ?_, hne⟩
        intro j hj
        rcases j with _ | j
        · rfl
        · exact hsame j (Nat.lt_of_succ_lt_succ hj)
      · refine ⟨0, Nat.zero_lt_succ _, Nat.zero_lt_succ _, fun j hj => absurd hj (Nat.not_lt_zero j), ?_⟩
        intro h
        exact hxy (Option.some.inj h)

end Service

/-! ### The table -/

namespace ServiceTable

open Service

variable {H : Type} {t : ServiceTable H} {l : List (Service H)}

/-- The first `l.length` places are in use, by these services, in an array of `N`. A name is padded with NULs. -/
structure Holds (N : Nat) (t : ServiceTable H) (l : List (Service H)) : Prop where
  length : t.services.length = N
  len : t.len = l.length
  inUse : t.services.take t.len = l.map some
  padded : ∀ s ∈ l, ∀ i, s.name.byteAt i = s.held.byteAt i

theorem Holds.inUse_eq {N : Nat} (h : Holds N t l) : t.inUse = l := by
  rw [ServiceTable.inUse, h.inUse, List.filterMap_map]
  exact List.filterMap_some

theorem Holds.le {N : Nat} (h : Holds N t l) : l.length ≤ N := by
  have hlen := congrArg List.length h.inUse
  rw [List.length_take, List.length_map, h.len, h.length] at hlen
  omega

theorem holds_new (N : Nat) : Holds N (new N : ServiceTable H) [] := ⟨List.length_replicate, rfl, rfl, nofun⟩

/-- A service is added at the end or not at all. -/
theorem Holds.add {N NAME : Nat} (h : Holds N t l) (name : Bytes) (handler : H) :
    (add NAME t name handler).2 = false ∧ (add NAME t name handler).1 = t ∨
      (add NAME t name handler).2 = true ∧ ∃ s : Service H, s.held = name ∧ s.handler = handler ∧
        Holds N (add NAME t name handler).1 (l ++ [s]) := by
  unfold ServiceTable.add
  by_cases hfull : t.len = t.services.length ∨ NAME < name.length
  · rw [if_pos hfull]
    exact .inl ⟨rfl, rfl⟩
  · rw [if_neg hfull]
    rw [not_or] at hfull
    have hroom : t.len < t.services.length := by
      have hle := h.le
      have hlen := h.len
      have hlength := h.length
      omega
    have hheld : (Bytes.copyAt (List.replicate NAME 0) 0 name).take name.length = name := by
      have hcopy := @Bytes.take_copyAt (List.replicate NAME 0) 0 name (Nat.zero_le _)
      rw [Nat.zero_add] at hcopy
      exact hcopy
    refine .inr ⟨rfl, ⟨Bytes.copyAt (List.replicate NAME 0) 0 name, name.length, handler⟩, hheld, rfl, ?_, ?_, ?_, ?_⟩
    · rw [List.length_set, h.length]
    · rw [List.length_append, List.length_singleton, h.len]
    · rw [take_set_end hroom, h.inUse, List.map_append]
      rfl
    · intro s hs i
      rcases List.mem_append.mp hs with hs | hs
      · exact h.padded s hs i
      · rw [List.mem_singleton] at hs
        rw [hs, held, hheld, Bytes.copyAt, List.take_zero, List.nil_append, Nat.zero_add, List.drop_replicate]
        by_cases hi : i < name.length
        · rw [Bytes.byteAt, Bytes.byteAt, List.getD_append _ _ _ _ hi]
        · rw [Bytes.byteAt_append_right (by omega), Bytes.byteAt, Bytes.byteAt, List.getD_eq_default name 0 (by omega),
            List.getD_eq_getElem?_getD]
          exact List.getElem?_getD_replicate_default_eq 0 _ _

/-- The service at the index goes, and the others stay in order. -/
theorem Holds.removed {N index : Nat} (h : Holds N t l) (hindex : index < l.length) :
    Holds N ⟨(rotateLeft t.services index t.len).set (t.len - 1) none, t.len - 1⟩ (l.eraseIdx index) := by
  have hle := h.le
  have hlen := h.len
  have hlength := h.length
  have hin : t.len ≤ t.services.length := by omega
  have hlt : index < t.len := by omega
  refine ⟨?_, ?_, ?_, fun s hs => h.padded s (List.mem_of_mem_eraseIdx hs)⟩
  · rw [List.length_set, length_rotateLeft (Nat.le_of_lt hlt) hin, h.length]
  · rw [List.length_eraseIdx_of_lt hindex, h.len]
  · rw [List.take_set_of_le (Nat.le_refl _), take_rotateLeft hlt hin, h.inUse, List.eraseIdx_map]

/-! ### Removing a name -/

/-- `remove` takes a service out whose name has the argument for a prefix. -/
theorem prefixes_iff {name : Bytes} {s : Service H} (hnul : 0 ∉ name)
    (hpad : ∀ i, s.name.byteAt i = s.held.byteAt i) : prefixes name s = true ↔ name <+: s.held := by
  have hread : ∀ i, some (s.name.getD i 0) = some (s.held.byteAt i) := fun i => congrArg some (hpad i)
  have hmatch : prefixes name s = true ↔
      strncmpEqFrom (fun i => some (s.name.getD i 0)) 0 name = .ok true := by
    unfold prefixes strncmpEq
    rw [List.take_length]
    rcases strncmpEqFrom (fun i => some (s.name.getD i 0)) 0 name with e | found
    · exact ⟨nofun, nofun⟩
    · constructor
      · intro h
        exact congrArg Except.ok h
      · intro h
        exact Except.ok.inj h
  rw [hmatch]
  constructor
  · intro h
    have hbytes := strncmpEqFrom_ok_true hnul h
    rw [List.prefix_iff_getElem?]
    intro j hj
    have hbyte := hbytes j hj
    rw [Nat.zero_add, hread, List.getElem?_eq_getElem hj] at hbyte
    have hin : j < s.held.length := by
      by_contra hout
      rw [Bytes.byteAt, List.getD_eq_default _ _ (Nat.le_of_not_lt hout)] at hbyte
      exact hnul (Option.some.inj hbyte ▸ List.getElem_mem hj)
    rw [Bytes.getElem?_eq_byteAt hin]
    exact hbyte
  · intro h
    apply strncmpEqFrom_prefix hnul
    intro j hj
    rw [List.prefix_iff_getElem?] at h
    have hbyte := h j hj
    rw [Nat.zero_add, hread, Bytes.byteAt, List.getD_eq_getElem?_getD, hbyte, List.getElem?_eq_getElem hj]
    rfl

/-- The names that are in use may not be prefixes of one another. -/
def PrefixFree (names : Set Bytes) : Prop := ∀ a ∈ names, ∀ b ∈ names, a <+: b → a = b

/-- Each service has a name of its own out of `names`. -/
structure Named (names : Set Bytes) (l : List (Service H)) : Prop where
  mem : ∀ s ∈ l, s.held ∈ names
  distinct : (l.map held).Nodup

variable {names : Set Bytes} {name : Bytes}

/-- The one service of that name is the one that is found. -/
theorem findIdx?_prefixes (hnul : ∀ n ∈ names, 0 ∉ n) (hfree : PrefixFree names) (hnamed : Named names l)
    (hpad : ∀ s ∈ l, ∀ i, s.name.byteAt i = s.held.byteAt i) (hname : name ∈ names) :
    l.findIdx? (prefixes name) = KeyedList.lookup held name l := by
  apply KeyedList.findIdx?_eq_lookup
  intro s hs
  rw [prefixes_iff (hnul name hname) (hpad s hs)]
  constructor
  · intro h
    exact (hfree name hname s.held (hnamed.mem s hs) h).symm
  · intro h
    rw [h]

theorem Named.eraseIdx (h : Named names l) (i : Nat) : Named names (l.eraseIdx i) :=
  ⟨fun s hs => h.mem s (List.mem_of_mem_eraseIdx hs), KeyedList.Distinct.eraseIdx h.distinct i⟩

/-- A listed name takes its service out of the list and no other. -/
theorem Holds.remove {N : Nat} (h : Holds N t l) (hnul : ∀ n ∈ names, 0 ∉ n) (hfree : PrefixFree names)
    (hnamed : Named names l) {s : Service H} (hs : s ∈ l) :
    ∃ index, KeyedList.lookup held s.held l = some index ∧ (remove t s.held).2 = true ∧
      Holds N (remove t s.held).1 (l.eraseIdx index) := by
  obtain ⟨index, hindex⟩ : ∃ index, KeyedList.lookup held s.held l = some index := by
    obtain ⟨index, hat⟩ := List.mem_iff_getElem?.mp hs
    exact ⟨index, (KeyedList.Distinct.lookup_eq_some hnamed.distinct).mpr ⟨s, hat, rfl⟩⟩
  have hfind := findIdx?_prefixes hnul hfree hnamed h.padded (hnamed.mem s hs)
  rw [hindex] at hfind
  refine ⟨index, hindex, ?_⟩
  unfold ServiceTable.remove
  rw [h.inUse_eq, hfind]
  exact ⟨rfl, h.removed (KeyedList.lookup_lt hindex)⟩

/-! ### Dispatch -/

variable {data : Bytes} {header : RequestHeader}

theorem hay_name {name : Bytes} (data : Bytes) {i : Nat} (hi : i < name.length) :
    hay (name ++ requestSuffix) data i = name[i]? := by
  rw [hay, List.getElem?_append_left hi, List.getElem?_eq_getElem hi]

/-- The walk calls the service of the name and passes every other. -/
theorem walk_eq (hnul : ∀ n ∈ names, 0 ∉ n) (hfree : PrefixFree names) (hmem : ∀ s ∈ l, s.held ∈ names)
    (hname : name ∈ names) (hheader : RequestHeader.decode data = .ok header)
    (hlen : data.length = RequestHeader.len + header.dataSize.toNat) (index : Nat) :
    (∀ s ∈ l, s.held ≠ name) ∧ walk (name ++ requestSuffix) data index l = .noService ∨
      ∃ i s, KeyedList.lookup held name l = some i ∧ l[i]? = some s ∧ s.held = name ∧
        walk (name ++ requestSuffix) data index l =
          .call (index + i) name s.handler header (data.drop RequestHeader.len) := by
  induction l generalizing index with
  | nil => exact .inl ⟨nofun, rfl⟩
  | cons s rest ih =>
    by_cases hs : s.held = name
    · refine .inr ⟨0, s, ?_, rfl, hs, ?_⟩
      · rw [KeyedList.lookup, List.findIdx?_cons, if_pos (decide_eq_true hs)]
      · have hmatch : strncmpEq name name.length (hay (name ++ requestSuffix) data) = .ok true := by
          rw [strncmpEq, List.take_length]
          apply strncmpEqFrom_prefix (hnul name hname)
          intro j hj
          rw [Nat.zero_add]
          exact hay_name data hj
        rw [walk]
        simp only [hs, hmatch, hheader]
        rw [if_neg (not_not_intro hlen), if_neg (not_not_intro List.length_append)]
        rfl
    · have hin := hmem s List.mem_cons_self
      obtain ⟨d, hd, hdName, hsame, hdiffers⟩ := exists_differs
        (fun h => hs (hfree s.held hin name hname h)) (fun h => hs (hfree name hname s.held hin h).symm)
      have hpass : strncmpEq s.held s.held.length (hay (name ++ requestSuffix) data) = .ok false := by
        rw [strncmpEq, List.take_length]
        refine @strncmpEqFrom_differs s.held _ (hnul s.held hin) 0 d hd (fun j hj => ?_) name[d] ?_ ?_
        · rw [Nat.zero_add, hay_name data (by omega)]
          exact hsame j hj
        · rw [Nat.zero_add, hay_name data hdName, List.getElem?_eq_getElem hdName]
        · rw [← List.getElem?_eq_getElem hdName]
          exact hdiffers
      have hwalk : walk (name ++ requestSuffix) data index (s :: rest) =
          walk (name ++ requestSuffix) data (index + 1) rest := by
        rw [walk]
        simp only [hpass]
      have hskip : KeyedList.lookup held name (s :: rest) = (KeyedList.lookup held name rest).map (· + 1) := by
        rw [KeyedList.lookup, List.findIdx?_cons, if_neg (by simpa using hs), KeyedList.lookup]
      obtain ⟨hnone, hrest⟩ | ⟨i, s', hi, hat, hheld, hrest⟩ :=
        ih (fun s' hs' => hmem s' (List.mem_cons_of_mem _ hs')) (index + 1)
      · refine .inl ⟨?_, hwalk.trans hrest⟩
        intro s' hs'
        rcases List.mem_cons.mp hs' with rfl | hs'
        · exact hs
        · exact hnone s' hs'
      · refine .inr ⟨i + 1, s', ?_, hat, hheld, ?_⟩
        · rw [hskip, hi]
          rfl
        · rw [hwalk, hrest, Nat.add_right_comm, Nat.add_assoc]

/-- A name that no listed service has is no service's call, whatever it is. -/
theorem walk_ne_call (hnul : ∀ s ∈ l, 0 ∉ s.held) (hother : ∀ s ∈ l, s.held ≠ name) (data : Bytes) (index : Nat)
    (i : Nat) (called : Bytes) (handler : H) (header : RequestHeader) (body : Bytes) :
    walk (name ++ requestSuffix) data index l ≠ .call i called handler header body := by
  induction l generalizing index with
  | nil => exact nofun
  | cons s rest ih =>
    have hrest := ih (fun s' hs' => hnul s' (List.mem_cons_of_mem _ hs'))
      (fun s' hs' => hother s' (List.mem_cons_of_mem _ hs')) (index + 1)
    rw [walk]
    rcases hmatch : strncmpEq s.held s.held.length (hay (name ++ requestSuffix) data) with e | found
    · exact nofun
    · rcases found with _ | _
      · exact hrest
      · rcases RequestHeader.decode data with e | header'
        · exact nofun
        · dsimp only
          split
          · exact nofun
          · split
            · exact nofun
            · rename_i htopic
              intro _
              -- a service whose request topic is as long as this one is the one it names
              rw [List.length_append, not_not] at htopic
              have hlen : s.held.length = name.length := by omega
              rw [strncmpEq, List.take_length] at hmatch
              have hbytes := strncmpEqFrom_ok_true (hnul s List.mem_cons_self) hmatch
              apply hother s List.mem_cons_self
              apply List.ext_getElem?
              intro j
              by_cases hj : j < name.length
              · have hbyte := hbytes j (by omega)
                rw [Nat.zero_add, hay_name data hj] at hbyte
                exact hbyte.symm
              · rw [List.getElem?_eq_none (by omega), List.getElem?_eq_none (by omega)]

/-! ### Over any run -/

/-- The tables that registering names that are not listed and unregistering listed ones leads to. -/
inductive Reached (names : Set Bytes) (N NAME : Nat) : ServiceTable H → Prop
  | new : Reached names N NAME (new N)
  | register {t : ServiceTable H} (h : Reached names N NAME t) {name : Bytes} (handler : H) (hname : name ∈ names)
      (hunlisted : ∀ entry ∈ t.listing, entry.1 ≠ name) : Reached names N NAME (add NAME t name handler).1
  | unregister {t : ServiceTable H} (h : Reached names N NAME t) {name : Bytes}
      (hlisted : ∃ entry ∈ t.listing, entry.1 = name) : Reached names N NAME (remove t name).1

variable {N NAME : Nat}

theorem Holds.listing_eq (h : Holds N t l) : t.listing = l.map fun s => (s.held, s.handler) := by
  rw [ServiceTable.listing, h.inUse_eq]

theorem Reached.invariant (hnul : ∀ n ∈ names, 0 ∉ n) (hfree : PrefixFree names) (h : Reached names N NAME t) :
    ∃ l, Holds N t l ∧ Named names l := by
  induction h with
  | new => exact ⟨[], holds_new N, nofun, List.nodup_nil⟩
  | @register t h name handler hname hunlisted ih =>
    obtain ⟨l, hholds, hnamed⟩ := ih
    obtain ⟨-, hsame⟩ | ⟨-, s, hheld, -, hadded⟩ := @Holds.add H t l N NAME hholds name handler
    · exact ⟨l, by rw [hsame]; exact hholds, hnamed⟩
    · refine ⟨l ++ [s], hadded, ?_, ?_⟩
      · intro s' hs'
        rcases List.mem_append.mp hs' with hs' | hs'
        · exact hnamed.mem s' hs'
        · rw [List.mem_singleton] at hs'
          rw [hs', hheld]
          exact hname
      · rw [List.map_append, List.map_singleton, hheld, ← List.concat_eq_append]
        refine List.Nodup.concat ?_ hnamed.distinct
        intro hmem
        obtain ⟨s', hs', heq⟩ := List.mem_map.mp hmem
        refine hunlisted (s'.held, s'.handler) ?_ heq
        rw [hholds.listing_eq]
        exact List.mem_map_of_mem hs'
  | @unregister t h name hlisted ih =>
    obtain ⟨l, hholds, hnamed⟩ := ih
    obtain ⟨entry, hentry, rfl⟩ := hlisted
    rw [hholds.listing_eq] at hentry
    obtain ⟨s, hs, rfl⟩ := List.mem_map.mp hentry
    obtain ⟨index, -, -, hremoved⟩ := hholds.remove hnul hfree hnamed hs
    exact ⟨_, hremoved, hnamed.eraseIdx index⟩

/-- `topic` writes the two strings one after the other. -/
theorem topic_eq {out out' service suffix : Bytes} {n : Nat} (h : topic out service suffix = .ok (out', n)) :
    out'.take n = service ++ suffix := by
  unfold topic at h
  dsimp only at h
  split_ifs at h with hroom
  injection h with h
  injection h with hout hn
  have hfirst : Bytes.copyAt out 0 service = service ++ out.drop service.length := by
    rw [Bytes.copyAt, List.take_zero, List.nil_append, Nat.zero_add]
  rw [← hout, ← hn, hfirst, Bytes.copyAt_append_at suffix rfl]
  exact List.take_left' List.length_append

/-- Whatever names were registered and unregistered before, a request to a name reaches the service that is listed
under it, a request to a name that is not listed reaches none, and removing a listed name removes its service. -/
theorem dispatches (names : Set Bytes) (hnul : ∀ n ∈ names, 0 ∉ n) (hfree : PrefixFree names)
    (h : Reached names N NAME t) :
    (∀ (name out out' : Bytes) (n : Nat) (data : Bytes) (header : RequestHeader),
      topic out name requestSuffix = .ok (out', n) → RequestHeader.decode data = .ok header →
      data.length = RequestHeader.len + header.dataSize.toNat →
      (∀ entry ∈ t.listing, entry.1 = name → ∃ index, t.listing[index]? = some entry ∧
        t.lookup (out'.take n) data = .call index name entry.2 header (data.drop RequestHeader.len)) ∧
      ((∀ entry ∈ t.listing, entry.1 ≠ name) →
        (name ∈ names → t.lookup (out'.take n) data = .noService) ∧
        ∀ index called handler header body, t.lookup (out'.take n) data ≠ .call index called handler header body)) ∧
    ∀ entry ∈ t.listing, (remove t entry.1).2 = true ∧
      (remove t entry.1).1.listing = t.listing.filter fun other => other.1 ≠ entry.1 := by
  obtain ⟨l, hholds, hnamed⟩ := h.invariant hnul hfree
  rw [hholds.listing_eq]
  constructor
  · intro name out out' n data header htopic hheader hlen
    rw [topic_eq htopic, ServiceTable.lookup, hholds.inUse_eq]
    constructor
    · intro entry hentry hname
      obtain ⟨s, hs, rfl⟩ := List.mem_map.mp hentry
      dsimp only at hname
      subst hname
      obtain ⟨hnone, -⟩ | ⟨i, s', -, hat, hheld, hwalk⟩ :=
        walk_eq hnul hfree hnamed.mem (hnamed.mem s hs) hheader hlen 0
      · exact absurd rfl (hnone s hs)
      · -- two services of one name are one
        obtain ⟨j, hj⟩ := List.mem_iff_getElem?.mp hs
        have hij := KeyedList.Distinct.index_eq hnamed.distinct hat hj hheld
        subst hij
        have hsame := Option.some.inj (hat.symm.trans hj)
        subst hsame
        refine ⟨i, ?_, ?_⟩
        · rw [List.getElem?_map, hat, Option.map_some]
        · rw [hwalk, Nat.zero_add]
    · intro hunlisted
      have hother : ∀ s ∈ l, s.held ≠ name := fun s hs => hunlisted _ (List.mem_map_of_mem hs)
      refine ⟨fun hname => ?_, fun index called handler header body => ?_⟩
      · obtain ⟨-, hwalk⟩ | ⟨i, s, -, hat, hheld, -⟩ := walk_eq hnul hfree hnamed.mem hname hheader hlen 0
        · exact hwalk
        · exact absurd hheld (hother s (List.mem_of_getElem? hat))
      · exact walk_ne_call (fun s hs => hnul s.held (hnamed.mem s hs)) hother data 0 index called handler header body
  · intro entry hentry
    obtain ⟨s, hs, rfl⟩ := List.mem_map.mp hentry
    obtain ⟨index, hindex, hremoved, hholds'⟩ := hholds.remove hnul hfree hnamed hs
    refine ⟨hremoved, ?_⟩
    rw [hholds'.listing_eq, KeyedList.eraseIdx_eq_filter hnamed.distinct hindex, List.filter_map]
    rfl

/-- Two names, the second unregistered again, and a request to the first. -/
theorem dispatches_pair : ∃ t : ServiceTable Nat, t.listing = [([0x61], 1)] ∧
    ∃ index, t.lookup [0x61, 0x2F, 0x72, 0x65, 0x71] [5, 0, 0, 0, 1, 0, 0, 0, 9] =
      .call index [0x61] 1 ⟨5, 1⟩ [9] := by
  have hreached : Reached {[0x61], [0x62]} 4 8 (remove (add 8 (add 8 (new 4) [0x61] 1).1 [0x62] 2).1 [0x62]).1 := by
    refine .unregister (.register (.register .new 1 (by simp) (by decide)) 2 (by simp) (by decide)) ?_
    exact ⟨([0x62], 2), by decide, rfl⟩
  have hfree : PrefixFree {[0x61], [0x62]} := by
    intro a ha b hb hab
    rcases ha with rfl | rfl <;> rcases hb with rfl | rfl <;> revert hab <;> decide
  have hrequest := (dispatches {[0x61], [0x62]} (by simp) hfree hreached).1 [0x61] (List.replicate 5 0) _ _
    [5, 0, 0, 0, 1, 0, 0, 0, 9] ⟨5, 1⟩ rfl rfl rfl
  obtain ⟨index, -, hcall⟩ := hrequest.1 ([0x61], 1) (by decide) rfl
  exact ⟨_, by decide, index, hcall⟩

end ServiceTable

end Bristlemouth
