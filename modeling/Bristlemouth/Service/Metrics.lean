import Bristlemouth.Lib.CString
import Bristlemouth.Lib.KeyedList
import Bristlemouth.Service.SysInfo

/-!
# The body of metrics

`service/metrics.rs`: a map of components, each a map of fields. An encoder goes through its tables in
order; the decoder finds a component by its key and a field's table entry by the field's key, whatever
the order of its own tables.
-/

set_option autoImplicit false

namespace Bristlemouth.Service.Metrics

open Bytes Config Bristlemouth.Parser

def maxKeyLen : Nat := 64

def version : UInt8 := 1

def numFields : Nat := 4

/-- The types a table entry may have. -/
inductive FieldType where
  | u8
  | u16
  | u32
  | u64
  | float
  | double
  | string
deriving DecidableEq

/-- A field with its value, floats as their bits. -/
inductive Field where
  | u8 (v : UInt8)
  | u16 (v : UInt16)
  | u32 (v : UInt32)
  | u64 (v : UInt64)
  | float (bits : UInt32)
  | double (bits : UInt64)
  | string
deriving DecidableEq

def Field.type : Field → FieldType
  | u8 _ => .u8
  | u16 _ => .u16
  | u32 _ => .u32
  | u64 _ => .u64
  | float _ => .float
  | double _ => .double
  | string => .string

structure Entry where
  key : Bytes
  field : Field
deriving DecidableEq

/-- `Component`, and `ComponentMut` with the fields that are to be filled. -/
structure Component where
  key : Bytes
  fields : List Entry
deriving DecidableEq

structure Reply where
  version : UInt8
  nodeId : UInt64
  uptimeMs : UInt32
deriving DecidableEq

/-- `key` up to its first NUL. -/
def cStr (key : Bytes) : Bytes := key.take (CString.strlen key)

/-- `version` -/
def versionKey : Bytes := [0x76, 0x65, 0x72, 0x73, 0x69, 0x6f, 0x6e]

/-- `node_id` -/
def nodeIdKey : Bytes := [0x6e, 0x6f, 0x64, 0x65, 0x5f, 0x69, 0x64]

/-- `uptime_ms` -/
def uptimeMsKey : Bytes := [0x75, 0x70, 0x74, 0x69, 0x6d, 0x65, 0x5f, 0x6d, 0x73]

/-- `data` -/
def dataKey : Bytes := [0x64, 0x61, 0x74, 0x61]

/-! ### Encoding -/

/-- A last entry of type string fails the table with one error, one before it with the other. -/
def stringEntries (entries : List Entry) : Except CborError Unit :=
  if entries.getLast?.map Entry.field = some .string then .error .unsupportedType
  else if entries.any fun e => e.field = .string then .error .tooFewItems
  else .ok ()

section
variable [Cbor2]

def encodeField (w : MapWriter) : Field → MapWriter
  | .u8 v => w.positive v.toUInt64
  | .u16 v => w.positive v.toUInt64
  | .u32 v => w.positive v.toUInt64
  | .u64 v => w.positive v
  | .float bits => w.float bits
  | .double bits => w.double bits
  | .string => w

def encodeFields (w : MapWriter) : List Entry → MapWriter
  | [] => w
  | e :: entries => encodeFields (encodeField (w.text (cStr e.key)) e.field) entries

def encodeComponents (w : MapWriter) : List Component → MapWriter
  | [] => w
  | c :: components =>
    encodeComponents (encodeFields ((w.text (cStr c.key)).map c.fields.length) c.fields) components

def encode (reply : Reply) (components : List Component) (buf : Bytes) : Bytes × Except CborError Nat :=
  match components.forM fun c => stringEntries c.fields with
  | .error e => (buf, .error e)
  | .ok () => encodeMap buf numFields fun w =>
    encodeComponents (((((w.uint versionKey reply.version.toUInt64).uint nodeIdKey reply.nodeId).uint
      uptimeMsKey reply.uptimeMs.toUInt64).text dataKey).map components.length) components

end

/-! ### Decoding -/

def keyValueUint (u : Usize) (value : Value) : Run (UInt64 × Value) := do
  let value ← skipKey u value
  if !value.isUnsignedInteger then fail .illegalType
  else
    let v ← value.extract u
    let value ← (value.advance u).get
    return (v, value)

/-- What the entry takes of the value, unless the types differ. -/
def Field.assign (u : Usize) (field : Field) (v : Value) : Run (Option Field) :=
  match field with
  | .u8 _ => if v.isUnsignedInteger then do return some (.u8 (← v.extract u).toUInt8) else .ok none
  | .u16 _ => if v.isUnsignedInteger then do return some (.u16 (← v.extract u).toUInt16) else .ok none
  | .u32 _ => if v.isUnsignedInteger then do return some (.u32 (← v.extract u).toUInt32) else .ok none
  | .u64 _ => if v.isUnsignedInteger then do return some (.u64 (← v.extract u)) else .ok none
  | .float _ => if v.isFloat then do return some (.float (← v.extract u).toUInt32) else .ok none
  | .double _ => if v.isDouble then do return some (.double (← v.extract u)) else .ok none
  | .string => .ok (some .string)

/-- The closure that copies a key into its buffer. -/
def keyBuffer : Bytes → List (Nat × Bytes) → Run Bytes
  | key, [] => .ok key
  | key, (start, chunk) :: copies =>
    if start + chunk.length ≤ key.length then keyBuffer (key.copyAt start chunk) copies else .error .panic

/-- A key of up to 63 bytes, up to its first NUL. -/
def readKey (u : Usize) (value : Value) (keyLen : Nat) : Run Bytes := do
  let (copies, result) := value.copyString u keyLen
  let key ← keyBuffer (List.replicate maxKeyLen 0) copies
  let copied ← result
  if !copied.all then fail .outOfMemory
  else return key.take (if CString.strlen key < key.length then CString.strlen key else keyLen)

/-- The table after the entry of `key` was looked for, and whether it is unknown or of another type. -/
def assignEntry (u : Usize) (value : Value) (key : Bytes) (entries : List Entry) :
    Run (List Entry × Bool × Bool) :=
  match entries.findIdx? fun e => cStr e.key = key with
  | none => .ok (entries, true, false)
  | some i =>
    match entries[i]? with
    | none => .error .panic
    | some e => do
      match ← e.field.assign u value with
      | none => return (entries, false, true)
      | some field => return (entries.set i { e with field }, false, false)

/-- The loop of `decode_fields`, with `unknown_key` and `type_mismatch`. -/
def decodeFields (u : Usize) : Nat → Value → List Entry → Bool → Bool → List Entry × Run Unit
  | 0, _, entries, _, _ => (entries, .error .diverge)
  | fuel + 1, value, entries, unknownKey, typeMismatch =>
    if value.atEnd then
      (entries, if typeMismatch then fail .improperValue else if unknownKey then fail .unsupportedType else .ok ())
    else if !value.isTextString then (entries, fail .illegalType)
    else
      match value.stringLength u with
      | .error h => (entries, .error h)
      | .ok keyLen =>
        if maxKeyLen - 1 < keyLen then
          match (value.advance u).get >>= fun value => (value.advance u).get with
          | .error h => (entries, .error h)
          | .ok value => decodeFields u fuel value entries unknownKey typeMismatch
        else
          match readKey u value keyLen with
          | .error h => (entries, .error h)
          | .ok key =>
            match (value.advance u).get with
            | .error h => (entries, .error h)
            | .ok value =>
              match assignEntry u value key entries with
              | .error h => (entries, .error h)
              | .ok (entries, unknown, mismatch) =>
                match (value.advance u).get with
                | .error h => (entries, .error h)
                | .ok value =>
                  decodeFields u fuel value entries (unknownKey || unknown) (typeMismatch || mismatch)

/-- The loop of `decode` over the components it is to find. -/
def decodeComponents (u : Usize) (data : Value) : List Component → List Component × Run Unit
  | [] => ([], .ok ())
  | c :: components =>
    match data.mapFindValue u (cStr c.key) with
    | .error h => (c :: components, .error h)
    | .ok comp =>
      if !comp.isValid then
        let (components, result) := decodeComponents u data components
        (c :: components, result)
      else if !comp.isMap then (c :: components, fail .illegalType)
      else
        match comp.enterContainer u with
        | .error h => (c :: components, .error h)
        | .ok field =>
          let (fields, result) := decodeFields u (field.buf.length + 1) field c.fields false false
          if result = .ok () ∨ result = fail .unsupportedType then
            let (components, result) := decodeComponents u data components
            ({ c with fields } :: components, result)
          else ({ c with fields } :: components, result)

/-- The part of `decode` that fills `reply`, up to the components. -/
def decodeHead (u : Usize) (buf : Bytes) : Into Reply Value := do
  let (_, value) ← reading (enterMap u buf numFields)
  let (n, value) ← reading (keyValueUint u value)
  modify fun reply => { reply with version := n.toUInt8 }
  let (n, value) ← reading (keyValueUint u value)
  modify fun reply => { reply with nodeId := n }
  let (n, value) ← reading (keyValueUint u value)
  modify fun reply => { reply with uptimeMs := n.toUInt32 }
  if !value.isTextString then reading (fail .illegalType)
  else
    let value ← reading (value.advance u).get
    if !value.isMap then reading (fail .illegalType) else return value

def decode (u : Usize) (buf : Bytes) (reply : Reply) (components : List Component) :
    (Reply × List Component) × Run Unit :=
  match (decodeHead u buf).into reply with
  | (reply, .error h) => ((reply, components), .error h)
  | (reply, .ok data) =>
    let (components, result) := decodeComponents u data components
    ((reply, components), result)

/-! ### What is written -/

def fieldItem : Field → Bytes
  | .u8 v => uintItem v.toUInt64
  | .u16 v => uintItem v.toUInt64
  | .u32 v => uintItem v.toUInt64
  | .u64 v => uintItem v
  | .float bits => Cbor.initial 7 26 :: beBytes 4 bits.toNat
  | .double bits => Cbor.initial 7 27 :: beBytes 8 bits.toNat
  | .string => []

def Entry.pair (e : Entry) : Bytes × Bytes := (cStr e.key, fieldItem e.field)

def Component.pair (c : Component) : Bytes × Bytes := (cStr c.key, bodyOf (c.fields.map Entry.pair))

/-- The entries of the reply's map. -/
def Reply.pairs (reply : Reply) (components : List Component) : List (Bytes × Bytes) :=
  [(versionKey, uintItem reply.version.toUInt64), (nodeIdKey, uintItem reply.nodeId),
    (uptimeMsKey, uintItem reply.uptimeMs.toUInt64), (dataKey, bodyOf (components.map Component.pair))]

theorem bodyOf_map {α : Type} (pair : α → Bytes × Bytes) (l : List α) :
    bodyOf (l.map pair) = Cbor.preferredHead 5 l.length ++ (Ahead.pairItems (l.map pair)).flatten := by
  rw [bodyOf, List.length_map]

theorem stringEntries_ok {entries : List Entry} (h : ∀ e ∈ entries, e.field ≠ .string) :
    stringEntries entries = .ok () := by
  have hlast : entries.getLast?.map Entry.field ≠ some .string := by
    intro heq
    obtain ⟨e, he, hfield⟩ := Option.map_eq_some_iff.mp heq
    exact h e (List.mem_of_getLast? he) hfield
  have hany : (entries.any fun e => decide (e.field = .string)) = false := by
    rw [List.any_eq_false]
    intro e he
    rw [decide_eq_true_eq]
    exact h e he
  rw [stringEntries, if_neg hlast, hany]
  rfl

theorem forM_stringEntries {components : List Component}
    (h : ∀ c ∈ components, ∀ e ∈ c.fields, e.field ≠ .string) :
    (components.forM fun c => stringEntries c.fields) = .ok () := by
  induction components with
  | nil => rfl
  | cons c components ih =>
    have hrest := ih fun c' hc' => h c' (List.mem_cons_of_mem c hc')
    rw [List.forM, stringEntries_ok (h c List.mem_cons_self)]
    exact hrest

section
variable [Cbor2] [Cbor2.Minimal] [Cbor2.Refusing]

theorem wrote_encodeField (w : MapWriter) {f : Field} (hf : f ≠ .string) :
    Wrote (fieldItem f) w (encodeField w f) := by
  cases f with
  | u8 v => exact .positive w v.toUInt64
  | u16 v => exact .positive w v.toUInt64
  | u32 v => exact .positive w v.toUInt64
  | u64 v => exact .positive w v
  | float bits => exact .float w bits
  | double bits => exact .double w bits
  | string => exact absurd rfl hf

theorem wrote_encodeFields {entries : List Entry} (h : ∀ e ∈ entries, e.field ≠ .string) (w : MapWriter) :
    Wrote (Ahead.pairItems (entries.map Entry.pair)).flatten w (encodeFields w entries) := by
  induction entries generalizing w with
  | nil => exact .nil w
  | cons e entries ih =>
    have hkey := Wrote.text w (cStr e.key)
    have hvalue := hkey.trans (wrote_encodeField _ (h e List.mem_cons_self))
    exact hvalue.cons (ih (fun e' he' => h e' (List.mem_cons_of_mem e he')) _)

theorem wrote_encodeComponents {components : List Component}
    (h : ∀ c ∈ components, ∀ e ∈ c.fields, e.field ≠ .string) (w : MapWriter) :
    Wrote (Ahead.pairItems (components.map Component.pair)).flatten w (encodeComponents w components) := by
  induction components generalizing w with
  | nil => exact .nil w
  | cons c components ih =>
    have hkey := Wrote.text w (cStr c.key)
    have hhead := hkey.trans (Wrote.map _ c.fields.length)
    have hbody := hhead.trans (wrote_encodeFields (h c List.mem_cons_self) _)
    rw [List.append_assoc, ← bodyOf_map] at hbody
    exact hbody.cons (ih (fun c' hc' => h c' (List.mem_cons_of_mem c hc')) _)

theorem encode_encodes (reply : Reply) {components : List Component}
    (h : ∀ c ∈ components, ∀ e ∈ c.fields, e.field ≠ .string) :
    Encodes (bodyOf (reply.pairs components)) (encode reply components) := by
  have hencode : encode reply components = fun buf => encodeMap buf numFields fun w =>
      encodeComponents (((((w.uint versionKey reply.version.toUInt64).uint nodeIdKey reply.nodeId).uint
        uptimeMsKey reply.uptimeMs.toUInt64).text dataKey).map components.length) components := by
    funext buf
    rw [encode, forM_stringEntries h]
  rw [hencode]
  apply encodes_map
  intro w
  have hmap := (Wrote.text (((w.uint versionKey reply.version.toUInt64).uint nodeIdKey reply.nodeId).uint
    uptimeMsKey reply.uptimeMs.toUInt64) dataKey).trans (Wrote.map _ components.length)
  have hdata := hmap.trans (wrote_encodeComponents h _)
  rw [List.append_assoc, ← bodyOf_map] at hdata
  exact (Wrote.uint w versionKey reply.version.toUInt64).cons <| (Wrote.uint _ nodeIdKey reply.nodeId).cons <|
    (Wrote.uint _ uptimeMsKey reply.uptimeMs.toUInt64).cons <| hdata.cons (.nil _)

end

/-! ### What is read back -/

/-- What the codec promises to keep: a key that fits its buffer and no string. -/
structure Entry.Plain (e : Entry) : Prop where
  nul : 0 ∉ e.key
  short : e.key.length ≤ maxKeyLen - 1
  field : e.field ≠ .string

/-- The parts of an entry that a decoder goes by. -/
def Entry.slot (e : Entry) : Bytes × FieldType := (e.key, e.field.type)

theorem cStr_of_no_nul {key : Bytes} (h : 0 ∉ key) : cStr key = key := by
  rw [cStr, CString.strlen_of_no_nul h, List.take_length]

theorem fine_fieldItem (d : Nat) {f : Field} (hf : f ≠ .string) : Fine d (fieldItem f) := by
  have hwide : ∀ {k n : Nat}, k = 2 ∨ k = 3 → n < 256 ^ 2 ^ k →
      Fine d (Cbor.initial 7 (24 + k) :: beBytes (2 ^ k) n) := by
    intro k n hk hn
    have hh : Cbor.IsHead 7 n (Cbor.initial 7 (24 + k) :: beBytes (2 ^ k) n) :=
      .long k (by omega) hn
    refine ⟨.simple hh fun htwo => ?_, untagged_isHead hh (by decide) (by decide)⟩
    rw [List.length_cons, length_beBytes] at htwo
    rcases hk with rfl | rfl
    · cases htwo
    · cases htwo
  cases f with
  | u8 v => exact fine_uintItem d _
  | u16 v => exact fine_uintItem d _
  | u32 v => exact fine_uintItem d _
  | u64 v => exact fine_uintItem d _
  | float bits => exact hwide (.inl rfl) bits.toNat_lt
  | double bits => exact hwide (.inr rfl) bits.toNat_lt
  | string => exact absurd rfl hf

section
variable {u : Usize} {buf rest : Bytes} {items : List Bytes} {v : Value}

/-- A value is taken by an entry of its type. -/
theorem assign_ok {field f : Field} (h : Ahead buf (fieldItem f :: items) rest v) (hf : f ≠ .string)
    (htype : field.type = f.type) : field.assign u v = .ok (some f) := by
  cases f with
  | u8 n =>
    cases field <;> cases htype
    obtain ⟨hunsigned, hextract⟩ := unsigned_ok (u := u) h
    have hcast : n.toUInt64.toUInt8 = n := UInt8.toUInt8_toUInt64 n
    rw [Field.assign, hunsigned, hextract]
    exact congrArg (fun n => Except.ok (some (Field.u8 n))) hcast
  | u16 n =>
    cases field <;> cases htype
    obtain ⟨hunsigned, hextract⟩ := unsigned_ok (u := u) h
    have hcast : n.toUInt64.toUInt16 = n := UInt16.toUInt16_toUInt64 n
    rw [Field.assign, hunsigned, hextract]
    exact congrArg (fun n => Except.ok (some (Field.u16 n))) hcast
  | u32 n =>
    cases field <;> cases htype
    obtain ⟨hunsigned, hextract⟩ := unsigned_ok (u := u) h
    have hcast : n.toUInt64.toUInt32 = n := UInt32.toUInt32_toUInt64 n
    rw [Field.assign, hunsigned, hextract]
    exact congrArg (fun n => Except.ok (some (Field.u32 n))) hcast
  | u64 n =>
    cases field <;> cases htype
    obtain ⟨hunsigned, hextract⟩ := unsigned_ok (u := u) h
    rw [Field.assign, hunsigned, hextract]
    rfl
  | float bits =>
    cases field <;> cases htype
    obtain ⟨hty, x, hx, hvalue⟩ := h.wide (u := u) (.inl rfl) (length_beBytes 4 bits.toNat)
    have hfloat : v.isFloat = true := decide_eq_true hty
    have hbits : x.toUInt32 = bits := by
      rw [beNat_beBytes, Nat.mod_eq_of_lt (by exact bits.toNat_lt : bits.toNat < 256 ^ 4)] at hvalue
      rw [← UInt32.toNat_inj, UInt64.toNat_toUInt32, hvalue]
      exact Nat.mod_eq_of_lt bits.toNat_lt
    rw [Field.assign, hfloat, hx]
    exact congrArg (fun n => Except.ok (some (Field.float n))) hbits
  | double bits =>
    cases field <;> cases htype
    obtain ⟨hty, x, hx, hvalue⟩ := h.wide (u := u) (.inr rfl) (length_beBytes 8 bits.toNat)
    have hdouble : v.isDouble = true := decide_eq_true hty
    have hbits : x = bits := by
      rw [beNat_beBytes, Nat.mod_eq_of_lt (by exact bits.toNat_lt : bits.toNat < 256 ^ 8)] at hvalue
      exact UInt64.toNat_inj.mp hvalue
    rw [Field.assign, hdouble, hx]
    exact congrArg (fun n => Except.ok (some (Field.double n))) hbits
  | string => exact absurd rfl hf

theorem readKey_ok {key : Bytes} (h : Ahead buf ((Cbor.Scalar.text key).encode :: items) rest v)
    (hnul : 0 ∉ key) (hshort : key.length ≤ maxKeyLen - 1) : readKey u v key.length = .ok key := by
  have hcopy := h.copyString (u := u) h.text_isHead key.length
  rw [if_pos (Nat.le_refl _), decide_eq_true (Nat.le_refl _), decide_eq_false (Nat.lt_irrefl _)] at hcopy
  have hfit : 0 + key.length ≤ (List.replicate maxKeyLen (0 : UInt8)).length := by
    rw [List.length_replicate]
    omega
  have hbuffer : copyAt (List.replicate maxKeyLen 0) 0 key =
      key ++ 0 :: List.replicate (maxKeyLen - 1 - key.length) 0 := by
    have hleft : maxKeyLen - (0 + key.length) = maxKeyLen - 1 - key.length + 1 := by
      have hmax : maxKeyLen = 64 := rfl
      omega
    rw [copyAt, List.take_zero, List.nil_append, List.drop_replicate, hleft, List.replicate_succ]
  have hlen := length_copyAt (List.replicate maxKeyLen 0) 0 key hfit
  have hstrlen : CString.strlen (copyAt (List.replicate maxKeyLen 0) 0 key) = key.length := by
    rw [hbuffer]
    exact CString.strlen_append_nul hnul _
  have htake : (copyAt (List.replicate maxKeyLen 0) 0 key).take key.length = key := by
    rw [hbuffer]
    exact List.take_left
  rw [readKey, hcopy]
  simp only [keyBuffer, if_pos hfit, bind, Except.bind, Bool.not_true, Bool.false_eq_true, if_false, hstrlen]
  rw [ite_self, htake]
  rfl

/-- The value goes over the table's entry of that key. -/
theorem assignEntry_ok {e : Entry} {entries : List Entry} (h : Ahead buf (fieldItem e.field :: items) rest v)
    (hplain : e.Plain) (hd : KeyedList.Distinct Entry.key entries) (hnul : ∀ d ∈ entries, 0 ∉ d.key)
    (hslot : e.slot ∈ entries.map Entry.slot) :
    assignEntry u v e.key entries = .ok (KeyedList.put Entry.key e entries, false, false) := by
  obtain ⟨d, hd', hsame⟩ := List.mem_map.mp hslot
  have hkey : d.key = e.key := congrArg Prod.fst hsame
  have htype : d.field.type = e.field.type := congrArg Prod.snd hsame
  obtain ⟨i, hi⟩ := List.mem_iff_getElem?.mp hd'
  have hlookup : KeyedList.lookup Entry.key e.key entries = some i := hd.lookup_eq_some.mpr ⟨d, hi, hkey⟩
  have hfind : (entries.findIdx? fun d => decide (cStr d.key = e.key)) = some i := by
    rw [← hlookup]
    apply KeyedList.findIdx?_eq_lookup
    intro b hb
    rw [decide_eq_true_eq, cStr_of_no_nul (hnul b hb)]
  have hput : KeyedList.put Entry.key e entries = entries.set i e := by
    rw [KeyedList.put, KeyedList.place, hlookup, Option.getD_some, if_pos (List.getElem?_eq_some_iff.mp hi).1]
  have hset : ({ d with field := e.field } : Entry) = e := by rw [hkey]
  rw [assignEntry, hfind, hput]
  simp only [hi, assign_ok (u := u) h hplain.field htype, bind, Except.bind, hset]
  rfl

/-- Every entry of the component is taken, each over the table's entry of its key. -/
theorem decodeFields_ok {es entries : List Entry} {fuel : Nat}
    (h : Ahead buf (Ahead.pairItems (es.map Entry.pair)) rest v) (hplain : ∀ e ∈ es, e.Plain)
    (hd : KeyedList.Distinct Entry.key entries) (hnul : ∀ d ∈ entries, 0 ∉ d.key)
    (hslot : ∀ e ∈ es, e.slot ∈ entries.map Entry.slot) (hfuel : es.length < fuel) :
    decodeFields u fuel v entries false false = (KeyedList.putAll Entry.key es entries, .ok ()) := by
  induction es generalizing v entries fuel with
  | nil =>
    obtain ⟨fuel, rfl⟩ := Nat.exists_eq_add_one.mpr hfuel
    have hzero : v.remaining = 0 := UInt32.toNat_inj.mp h.remaining
    have hend : v.atEnd = true := decide_eq_true hzero
    rw [decodeFields, if_pos hend]
    rfl
  | cons e es ih =>
    obtain ⟨fuel, rfl⟩ := Nat.exists_eq_add_one.mpr (Nat.zero_lt_of_lt hfuel)
    have he := hplain e List.mem_cons_self
    have hslote := hslot e List.mem_cons_self
    have hopen : v.atEnd = false := decide_eq_false h.live
    rw [List.map_cons, Ahead.pairItems_cons, Entry.pair, cStr_of_no_nul he.nul] at h
    have hh := h.text_isHead
    have htext : v.isTextString = true := (h.text_iff hh (by decide)).mpr rfl
    have hlen := h.stringLength (u := u) hh
    have hread := readKey_ok (u := u) h he.nul he.short
    have hfits : ¬ maxKeyLen - 1 < e.key.length := Nat.not_lt.mpr he.short
    obtain ⟨x, hx, hxahead⟩ := advance_ok (u := u) h
    have hassign := assignEntry_ok (u := u) hxahead he hd hnul hslote
    obtain ⟨y, hy, hyahead⟩ := advance_ok (u := u) hxahead
    obtain ⟨d, hmem, hsame⟩ := List.mem_map.mp hslote
    have hslots := KeyedList.map_put (f := Entry.slot) hd hmem (congrArg Prod.fst hsame) hsame
    have hrest := ih hyahead (fun e' he' => hplain e' (List.mem_cons_of_mem e he'))
      (KeyedList.distinct_put hd e)
      (fun b hb => by
        rcases KeyedList.mem_put hb with rfl | hb
        · exact he.nul
        · exact hnul b hb)
      (fun e' he' => by
        rw [hslots]
        exact hslot e' (List.mem_cons_of_mem e he'))
      (Nat.lt_of_succ_lt_succ hfuel)
    rw [decodeFields, hopen, htext, hlen]
    simp only [Bool.false_eq_true, if_false, Bool.not_true, if_neg hfits, hread, hx, hassign, hy, Bool.or_false]
    exact hrest

end

/-- What the codec promises to keep of a reply: components and fields that their keys tell apart. -/
structure Keyed (components : List Component) : Prop where
  distinct : (components.map fun c => cStr c.key).Nodup
  fields : ∀ c ∈ components, KeyedList.Distinct Entry.key c.fields
  plain : ∀ c ∈ components, ∀ e ∈ c.fields, e.Plain

/-- A component that is to be filled, with a table of the entries of `source` in any order. -/
structure Matches (source dest : Component) : Prop where
  key : dest.key = source.key
  slots : (dest.fields.map Entry.slot).Perm (source.fields.map Entry.slot)

/-- A component that was filled: its table is in its own order. -/
structure Filled (source dest filled : Component) : Prop where
  key : filled.key = dest.key
  slots : filled.fields.map Entry.slot = dest.fields.map Entry.slot
  fields : filled.fields.Perm source.fields

theorem Matches.distinct {source dest : Component} (h : Matches source dest)
    (hd : KeyedList.Distinct Entry.key source.fields) : KeyedList.Distinct Entry.key dest.fields := by
  have hkeys := h.slots.map Prod.fst
  rw [List.map_map, List.map_map] at hkeys
  exact hkeys.symm.nodup hd

theorem Matches.nul {source dest : Component} (h : Matches source dest)
    (hplain : ∀ e ∈ source.fields, e.Plain) : ∀ d ∈ dest.fields, 0 ∉ d.key := by
  intro d hd
  obtain ⟨e, he, hsame⟩ := List.mem_map.mp (h.slots.subset (List.mem_map_of_mem hd))
  have hkey : e.key = d.key := congrArg Prod.fst hsame
  rw [← hkey]
  exact (hplain e he).nul

/-- The component with its entries overwritten. -/
def fill (source dest : Component) : Component :=
  { dest with fields := KeyedList.putAll Entry.key source.fields dest.fields }

theorem filled_fill {source dest : Component} (h : Matches source dest)
    (hd : KeyedList.Distinct Entry.key source.fields) : Filled source dest (fill source dest) := by
  have hf : ∀ b c : Entry, b.slot = c.slot → b.key = c.key := fun b c heq => congrArg Prod.fst heq
  refine ⟨rfl, ?_, KeyedList.perm_putAll hf hd (h.distinct hd) h.slots⟩
  apply KeyedList.map_putAll hf (h.distinct hd)
  intro e he
  exact h.slots.symm.subset (List.mem_map_of_mem he)

theorem fine_fields {d : Nat} {c : Component} (hplain : ∀ e ∈ c.fields, e.Plain) :
    ∀ pair ∈ c.fields.map Entry.pair, pair.1.length < 2 ^ 64 ∧ Fine d pair.2 := by
  intro pair hpair
  obtain ⟨e, he, rfl⟩ := List.mem_map.mp hpair
  have hshort := (hplain e he).short
  have hmax : maxKeyLen = 64 := rfl
  have hkey : (Entry.pair e).1 = e.key := cStr_of_no_nul (hplain e he).nul
  refine ⟨?_, fine_fieldItem d (hplain e he).field⟩
  rw [hkey]
  omega

theorem fine_components {d : Nat} {components : List Component} (hkeyed : Keyed components)
    (hshort : (bodyOf (components.map Component.pair)).length < 2 ^ 31) :
    ∀ pair ∈ components.map Component.pair, pair.1.length < 2 ^ 64 ∧ Fine (d + 1) pair.2 := by
  intro pair hpair
  have hlen := length_le_bodyOf hpair
  obtain ⟨c, hc, rfl⟩ := List.mem_map.mp hpair
  have hcount := length_pairs_le (c.fields.map Entry.pair)
  have hbody : c.pair.2 = bodyOf (c.fields.map Entry.pair) := rfl
  refine ⟨by omega, ?_⟩
  rw [hbody] at hlen ⊢
  exact fine_bodyOf (by omega) (fine_fields (hkeyed.plain c hc))

section
variable {u : Usize} {buf rest : Bytes} {components : List Component} {data : Value}

/-- A component that is in the map is found, whatever is in front of it. -/
theorem mapFindValue_ok {source : Component}
    (h : Ahead buf [bodyOf (components.map Component.pair)] rest data) (hkeyed : Keyed components)
    (hsource : source ∈ components) : ∃ comp items rest', data.mapFindValue u (cStr source.key) = .ok comp ∧
      Ahead buf (bodyOf (source.fields.map Entry.pair) :: items) rest' comp := by
  have hshort : (bodyOf (components.map Component.pair)).length < 2 ^ 31 := by
    have hle := h.item_le
    have hbuf := h.short
    omega
  have hfine := @fine_components 8 components hkeyed hshort
  have hcount := length_pairs_le (components.map Component.pair)
  have hh := @Cbor.isHead_preferredHead 5 (components.map Component.pair).length (by omega)
  obtain ⟨before, after, hsplit⟩ := List.append_of_mem hsource
  have hpairs : components.map Component.pair =
      before.map Component.pair ++ source.pair :: after.map Component.pair := by
    rw [hsplit, List.map_append, List.map_cons]
  have hfirst : cStr source.key ∉ (before.map Component.pair).map Prod.fst := by
    have hdistinct := hkeyed.distinct
    rw [hsplit, List.map_append, List.map_cons, List.nodup_append] at hdistinct
    rw [List.map_map]
    intro hmem
    exact hdistinct.2.2 _ hmem _ List.mem_cons_self rfl
  have heach : ∀ b ∈ Ahead.pairItems (components.map Component.pair), Cbor.Item maxRecursions b ∧ Untagged b :=
    fun b hb => (fine_pairItems hfine b hb).succ
  rw [bodyOf] at h
  rw [hpairs] at h hh heach
  obtain ⟨comp, hcomp, hahead⟩ := h.mapFindValue (u := u) hh rfl heach hfirst
  exact ⟨comp, _, _, hcomp, hahead⟩

theorem decodeComponents_ok {source dest : List Component}
    (h : Ahead buf [bodyOf (components.map Component.pair)] rest data) (hkeyed : Keyed components)
    (hsource : source ⊆ components) (hmatch : List.Forall₂ Matches source dest) :
    decodeComponents u data dest = (List.zipWith fill source dest, .ok ()) := by
  induction hmatch with
  | nil => rfl
  | @cons s d source dest hsame hmatch ih =>
    rw [List.cons_subset] at hsource
    have hrest := ih hsource.2
    have hplain := hkeyed.plain s hsource.1
    obtain ⟨comp, items, rest', hcomp, hahead⟩ := mapFindValue_ok (u := u) h hkeyed hsource.1
    obtain ⟨major, info, argument, hon⟩ := hahead.on (List.cons_ne_nil _ items)
    have hvalid : comp.isValid = true := decide_eq_true hon.valid
    have hlen := hahead.item_le
    have hbuf := hahead.short
    have hcount := length_pairs_le (s.fields.map Entry.pair)
    have hitems := Ahead.length_pairItems (s.fields.map Entry.pair)
    have hh := @Cbor.isHead_preferredHead 5 (s.fields.map Entry.pair).length (by omega)
    rw [bodyOf] at hahead
    have hmap : comp.isMap = true := (hahead.map_iff hh (by decide)).mpr rfl
    obtain ⟨field, hfield, hinside⟩ := hahead.enter (u := u) hh hitems
      fun b hb => (fine_pairItems (d := 9) (fine_fields hplain) b hb).succ
    have hfuel : s.fields.length < field.buf.length + 1 := by
      rw [hinside.buf_eq]
      rw [List.length_map] at hcount
      omega
    have hdecode := decodeFields_ok (u := u) hinside hplain (hsame.distinct (hkeyed.fields s hsource.1))
      (hsame.nul hplain) (fun e he => hsame.slots.symm.subset (List.mem_map_of_mem he)) hfuel
    rw [List.zipWith_cons_cons, fill, decodeComponents, hsame.key, hcomp]
    simp only [hvalid, hmap, hfield, hdecode, hrest, Bool.not_true, Bool.false_eq_true, if_false, true_or, if_true]

theorem keyValueUint_ok {key rest : Bytes} {n : UInt64} {items : List Bytes} {v : Value}
    (h : Ahead buf ((Cbor.Scalar.text key).encode :: uintItem n :: items) rest v) :
    ∃ w, keyValueUint u v = .ok (n, w) ∧ Ahead buf items rest w := by
  obtain ⟨x, hx, hxahead⟩ := skipKey_ok (u := u) h
  obtain ⟨hunsigned, hextract⟩ := unsigned_ok (u := u) hxahead
  obtain ⟨w, hw, hahead⟩ := advance_ok (u := u) hxahead
  refine ⟨w, ?_, hahead⟩
  rw [keyValueUint, hx]
  simp only [bind, Except.bind, hunsigned, Bool.not_true, Bool.false_eq_true, if_false, hextract, hw]
  rfl

theorem decodeHead_ok {reply : Reply} (hkeyed : Keyed components)
    (hshort : (bodyOf (reply.pairs components)).length < 2 ^ 31) (was : Reply) :
    ∃ data, (decodeHead u (bodyOf (reply.pairs components))).into was = (reply, .ok data) ∧
      Ahead (bodyOf (reply.pairs components)) [bodyOf (components.map Component.pair)] [] data := by
  have hdata : (dataKey, bodyOf (components.map Component.pair)) ∈ reply.pairs components := by
    simp [Reply.pairs]
  have hlen := length_le_bodyOf hdata
  dsimp only at hlen
  have hcount := length_pairs_le (components.map Component.pair)
  have hfine : ∀ pair ∈ reply.pairs components, pair.1.length < 2 ^ 64 ∧ Fine 9 pair.2 := by
    intro pair hpair
    simp only [Reply.pairs, List.mem_cons, List.not_mem_nil, or_false] at hpair
    rcases hpair with rfl | rfl | rfl | rfl
    · exact ⟨(by decide : versionKey.length < 2 ^ 64), fine_uintItem 9 _⟩
    · exact ⟨(by decide : nodeIdKey.length < 2 ^ 64), fine_uintItem 9 _⟩
    · exact ⟨(by decide : uptimeMsKey.length < 2 ^ 64), fine_uintItem 9 _⟩
    · exact ⟨(by decide : dataKey.length < 2 ^ 64),
        fine_bodyOf (by omega) (fine_components (d := 7) hkeyed (by omega))⟩
  have hfields : (reply.pairs components).length = 4 := rfl
  obtain ⟨map, v, hmap, -, h⟩ := enterMap_ok (u := u) rfl hshort (by omega) hfine
  obtain ⟨v1, hgo1, h1⟩ := keyValueUint_ok (u := u) h
  obtain ⟨v2, hgo2, h2⟩ := keyValueUint_ok (u := u) h1
  obtain ⟨v3, hgo3, h3⟩ := keyValueUint_ok (u := u) h2
  have htext : v3.isTextString = true := (h3.text_iff h3.text_isHead (by decide)).mpr rfl
  obtain ⟨data, hgo, hahead⟩ := advance_ok (u := u) h3
  have hh := @Cbor.isHead_preferredHead 5 (components.map Component.pair).length (by omega)
  have hismap : data.isMap = true := by
    have hinside := hahead
    rw [bodyOf] at hinside
    exact (hinside.map_iff hh (by decide)).mpr rfl
  refine ⟨data, ?_, hahead⟩
  have hnum : numFields = (reply.pairs components).length := rfl
  rw [decodeHead, hnum]
  simp only [hmap, reading_ok_bind, hgo1, hgo2, hgo3, into_modify_bind, htext, hgo, hismap, Bool.not_true,
    Bool.false_eq_true, if_false, UInt8.toUInt8_toUInt64, UInt32.toUInt32_toUInt64]
  rfl

theorem decode_ok {reply : Reply} (hkeyed : Keyed components)
    (hshort : (bodyOf (reply.pairs components)).length < 2 ^ 31) (was : Reply) {source dest : List Component}
    (hsource : source ⊆ components) (hmatch : List.Forall₂ Matches source dest) :
    decode u (bodyOf (reply.pairs components)) was dest =
      ((reply, List.zipWith fill source dest), .ok ()) := by
  obtain ⟨data, hhead, hahead⟩ := decodeHead_ok (u := u) hkeyed hshort was
  rw [decode, hhead]
  simp only [decodeComponents_ok hahead hkeyed hsource hmatch]

end

end Bristlemouth.Service.Metrics

namespace Bristlemouth.Service

open Config Metrics Bristlemouth.Parser

/-- What a body is decoded to is what was encoded, and encoding refuses nothing but a short buffer. -/
theorem replies_round_trip [Cbor2] [Cbor2.Minimal] [Cbor2.Refusing] :
    (∀ r : SysInfo.SysInfoReply, ∃ bytes, Encodes bytes r.encode ∧
      ∀ (u : Usize) (d : SysInfo.DecodedSysInfoReply), bytes.length < 2 ^ 31 →
        r.appName.length ≤ (r.appNameStrlen + 1).toNat → ∃ name : CborString,
          (SysInfo.decodeInto u bytes).into d =
            (⟨r.nodeId, r.gitSha, r.sysConfigCrc, r.appNameStrlen, some name⟩, .ok ()) ∧
          name.len = r.appName.length ∧ ∀ text, name.eqBytes u text = .ok (decide (text = r.appName))) ∧
    (∀ r : PowerInfo.PowerInfoReply, ∃ bytes, Encodes bytes r.encode ∧
      ∀ (u : Usize) (d : PowerInfo.PowerInfoReply), (PowerInfo.decodeInto u bytes).into d = (r, .ok ())) ∧
    (∀ (r : Reply) (components : List Component), Keyed components → ∃ bytes,
      Encodes bytes (encode r components) ∧
      ∀ (u : Usize) (d : Reply) (source dest : List Component), bytes.length < 2 ^ 31 →
        source ⊆ components → List.Forall₂ Matches source dest → ∃ filled,
          decode u bytes d dest = ((r, filled), .ok ()) ∧ filled.length = dest.length ∧
          ∀ (i : Nat) (s c f : Component), source[i]? = some s → dest[i]? = some c → filled[i]? = some f → Filled s c f) := by
  refine ⟨fun r => ?_, fun r => ?_, fun r components hkeyed => ?_⟩
  · refine ⟨bodyOf r.pairs, SysInfo.encode_encodes r, fun u d hshort hname => ?_⟩
    exact SysInfo.decode_ok hshort hname d
  · exact ⟨bodyOf r.pairs, PowerInfo.encode_encodes r, fun u d => PowerInfo.decode_ok u r d⟩
  · have hstring : ∀ c ∈ components, ∀ e ∈ c.fields, e.field ≠ .string :=
      fun c hc e he => (hkeyed.plain c hc e he).field
    refine ⟨bodyOf (r.pairs components), encode_encodes r hstring, ?_⟩
    intro u d source dest hshort hsource hmatch
    have hlen := hmatch.length_eq
    refine ⟨List.zipWith fill source dest, decode_ok hkeyed hshort d hsource hmatch, ?_, ?_⟩
    · rw [List.length_zipWith, hlen, Nat.min_self]
    · intro i s c f hs hc hf
      rw [List.getElem?_zipWith, hs, hc] at hf
      cases hf
      obtain ⟨hin, rfl⟩ := List.getElem?_eq_some_iff.mp hs
      obtain ⟨hin', rfl⟩ := List.getElem?_eq_some_iff.mp hc
      have hsame := hmatch.get hin hin'
      exact filled_fill hsame (hkeyed.fields _ (hsource (List.getElem_mem hin)))

/-- `temp`, `count`, and the component `s` of the two. -/
def sampleComponents : List Component :=
  [⟨[0x73], [⟨[0x74, 0x65, 0x6d, 0x70], .float 0x41c80000⟩, ⟨[0x63, 0x6f, 0x75, 0x6e, 0x74], .u16 513⟩]⟩]

/-- The table of the component, in the other order. -/
def sampleTables : List Component :=
  [⟨[0x73], [⟨[0x63, 0x6f, 0x75, 0x6e, 0x74], .u16 0⟩, ⟨[0x74, 0x65, 0x6d, 0x70], .float 0⟩]⟩]

theorem keyed_sampleComponents : Keyed sampleComponents := by
  refine ⟨by decide, by unfold KeyedList.Distinct; decide, ?_⟩
  intro c hc e he
  obtain rfl := List.mem_singleton.mp hc
  rcases List.mem_pair.mp he with rfl | rfl
  · exact ⟨by decide, by decide, by decide⟩
  · exact ⟨by decide, by decide, by decide⟩

theorem replies_round_trip_sample :
    ∃ bytes filled, Encodes bytes (@encode Cbor2.shortest ⟨1, 2, 3⟩ sampleComponents) ∧
      decode .bits64 bytes ⟨0, 0, 0⟩ sampleTables = ((⟨1, 2, 3⟩, filled), .ok ()) ∧
      filled.length = sampleTables.length := by
  obtain ⟨bytes, hencodes, hdecode⟩ := (@replies_round_trip Cbor2.shortest Cbor2.shortest_minimal
    shortest_refusing).2.2 ⟨1, 2, 3⟩ sampleComponents keyed_sampleComponents
  have hmatch : List.Forall₂ Matches sampleComponents sampleTables := .cons ⟨rfl, .swap _ _ _⟩ .nil
  have hroom : (@encode Cbor2.shortest ⟨1, 2, 3⟩ sampleComponents (List.replicate 80 0)).2 ≠ .error .outOfMemory := by
    decide +kernel
  have hshort : bytes.length ≤ 80 := by
    by_contra hlong
    have hout := hencodes (List.replicate 80 0)
    rw [List.length_replicate, if_neg hlong] at hout
    exact hroom hout
  obtain ⟨filled, hfilled, hlen, -⟩ :=
    hdecode .bits64 ⟨0, 0, 0⟩ sampleComponents sampleTables (by omega) (List.Subset.refl _) hmatch
  exact ⟨bytes, filled, hencodes, hfilled, hlen⟩

/-- A reply that promises a shorter name than it has: `abc`, of no bytes. -/
def longName : SysInfo.SysInfoReply := ⟨1, 2, 3, 0, [0x61, 0x62, 0x63]⟩

theorem longName_not_decoded :
    (@SysInfo.SysInfoReply.encode Cbor2.shortest longName (List.replicate 70 0)).2 = .ok 65 ∧
      ((SysInfo.decodeInto .bits64
        ((@SysInfo.SysInfoReply.encode Cbor2.shortest longName (List.replicate 70 0)).1.take 65)).into
          ⟨0, 0, 0, 0, none⟩).2 = fail .outOfMemory := by
  decide +kernel

end Bristlemouth.Service
