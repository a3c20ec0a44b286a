import Mathlib.Data.List.Nodup
import Mathlib.Data.List.InsertIdx
import Mathlib.Data.List.Perm.Subperm

/-!
# Lists with a key

A list whose entries carry a name is a map with an order, as long as the names are distinct. `put`
overwrites the entry of a name or adds one at the end, `List.eraseIdx` removes one and closes the gap;
either way every other entry stays as it was.
-/

set_option autoImplicit false

namespace KeyedList

universe u v

variable {α : Type u} {κ : Type v} [DecidableEq κ] (name : α → κ)

def lookup (k : κ) (l : List α) : Option Nat := l.findIdx? fun a => decide (name a = k)

def Distinct (l : List α) : Prop := (l.map name).Nodup

/-- Where an entry of this name goes: over the one there is, or at the end. -/
def place (k : κ) (l : List α) : Nat := (lookup name k l).getD l.length

def put (a : α) (l : List α) : List α :=
  if place name (name a) l < l.length then l.set (place name (name a) l) a else l ++ [a]

def entry (k : κ) (l : List α) : Option α := l.find? fun a => decide (name a = k)

variable {name} {k : κ} {l : List α} {a : α} {i j : Nat}

theorem lookup_eq_none : lookup name k l = none ↔ ∀ b ∈ l, name b ≠ k := by
  simp [lookup, List.findIdx?_eq_none_iff]

theorem getElem?_of_lookup (h : lookup name k l = some i) : ∃ b, l[i]? = some b ∧ name b = k := by
  obtain ⟨hi, hname, -⟩ := List.findIdx?_eq_some_iff_getElem.mp h
  exact ⟨l[i], List.getElem?_eq_getElem hi, of_decide_eq_true hname⟩

theorem lookup_lt (h : lookup name k l = some i) : i < l.length := by
  obtain ⟨b, hb, -⟩ := getElem?_of_lookup h
  exact (List.getElem?_eq_some_iff.mp hb).1

omit [DecidableEq κ] in
/-- Two entries of one name are one entry. -/
theorem Distinct.index_eq (hd : Distinct name l) {b c : α} (hi : l[i]? = some b)
    (hj : l[j]? = some c) (hname : name b = name c) : i = j := by
  have hmapi : (l.map name)[i]? = some (name b) := by simp [hi]
  have hmapj : (l.map name)[j]? = some (name b) := by simp [hj, hname]
  have hlt := (List.getElem?_eq_some_iff.mp hmapi).1
  exact (List.getElem?_inj hlt hd).mp (hmapi.trans hmapj.symm)

theorem Distinct.lookup_eq_some (hd : Distinct name l) :
    lookup name k l = some i ↔ ∃ b, l[i]? = some b ∧ name b = k := by
  constructor
  · exact getElem?_of_lookup
  · rintro ⟨b, hb, rfl⟩
    cases h : lookup name (name b) l with
    | none => exact absurd rfl (lookup_eq_none.mp h b (List.mem_of_getElem? hb))
    | some j =>
      obtain ⟨c, hc, hname⟩ := getElem?_of_lookup h
      rw [hd.index_eq hc hb hname]

/-- A search by anything that tells the names apart is the search by name. -/
theorem findIdx?_eq_lookup {p : α → Bool} (h : ∀ b ∈ l, p b = true ↔ name b = k) :
    l.findIdx? p = lookup name k l := by
  induction l with
  | nil => rfl
  | cons b l ih =>
    have hrest := ih fun c hc => h c (List.mem_cons_of_mem b hc)
    have hfirst : p b = decide (name b = k) := by
      rw [Bool.eq_iff_iff, decide_eq_true_iff]
      exact h b List.mem_cons_self
    rw [lookup, List.findIdx?_cons, List.findIdx?_cons, hrest, hfirst, lookup]

/-- Erasing the entry of a name leaves the entries of the others. -/
theorem Distinct.eraseP_eq (hd : Distinct name l) (k : κ) :
    (l.eraseP fun a => decide (name a = k)) = l.filter fun a => decide (name a ≠ k) := by
  induction l with
  | nil => rfl
  | cons a l ih =>
    obtain ⟨hnew, hrest⟩ := List.nodup_cons.mp hd
    by_cases ha : name a = k
    · have hothers : ∀ b ∈ l, name b ≠ k := by
        intro b hb heq
        exact hnew (List.mem_map.mpr ⟨b, hb, heq.trans ha.symm⟩)
      rw [List.eraseP_cons_of_pos (by simp [ha]), List.filter_cons_of_neg (by simp [ha])]
      exact (List.filter_eq_self.mpr fun b hb => decide_eq_true (hothers b hb)).symm
    · rw [List.eraseP_cons_of_neg (by simp [ha]), List.filter_cons_of_pos (by simp [ha]), ih hrest]

theorem place_le : place name k l ≤ l.length := by
  unfold place
  cases h : lookup name k l with
  | none => exact Nat.le_refl _
  | some i => exact Nat.le_of_lt (lookup_lt h)

theorem length_put :
    (put name a l).length = if lookup name (name a) l = none then l.length + 1 else l.length := by
  unfold put place
  cases h : lookup name (name a) l with
  | none => simp
  | some i => simp [lookup_lt h]

theorem getElem?_put_place : (put name a l)[place name (name a) l]? = some a := by
  unfold put
  have hle : place name (name a) l ≤ l.length := place_le
  split_ifs with hlt
  · simp [hlt]
  · rw [show place name (name a) l = l.length by omega]
    simp

theorem getElem?_put_of_ne (hj : j < l.length) (hne : j ≠ place name (name a) l) :
    (put name a l)[j]? = l[j]? := by
  unfold put
  split_ifs with hlt
  · rw [List.getElem?_set, if_neg (Ne.symm hne)]
  · rw [List.getElem?_append_left hj]

/-- Every entry afterwards is the new one or was there before, in the same place. -/
theorem getElem?_put {b : α} (h : (put name a l)[j]? = some b) :
    j = place name (name a) l ∧ b = a ∨ j ≠ place name (name a) l ∧ l[j]? = some b := by
  by_cases hj : j = place name (name a) l
  · subst hj
    rw [getElem?_put_place] at h
    exact .inl ⟨rfl, (Option.some.inj h).symm⟩
  · refine .inr ⟨hj, ?_⟩
    have hlength : j < (put name a l).length := (List.getElem?_eq_some_iff.mp h).1
    have hle : place name (name a) l ≤ l.length := place_le
    have hlt : j < l.length := by
      unfold put at hlength
      split_ifs at hlength
      · simpa using hlength
      · simp only [List.length_append, List.length_singleton] at hlength
        omega
    rwa [getElem?_put_of_ne hlt hj] at h

theorem mem_put {b : α} (h : b ∈ put name a l) : b = a ∨ b ∈ l := by
  obtain ⟨j, hj⟩ := List.mem_iff_getElem?.mp h
  rcases getElem?_put hj with ⟨-, rfl⟩ | ⟨-, hb⟩
  · exact .inl rfl
  · exact .inr (List.mem_of_getElem? hb)

theorem place_of_name (hd : Distinct name l) {b : α} (hb : l[j]? = some b) :
    place name (name b) l = j := by
  rw [place, hd.lookup_eq_some.mpr ⟨b, hb, rfl⟩, Option.getD_some]

/-- An entry of another name is not in the place of a name. -/
theorem ne_place {b : α} (hb : l[j]? = some b) (hne : name b ≠ k) : j ≠ place name k l := by
  unfold place
  intro heq
  cases h : lookup name k l with
  | none =>
    rw [h, Option.getD_none] at heq
    exact absurd (List.getElem?_eq_some_iff.mp hb).1 (by omega)
  | some i =>
    rw [h, Option.getD_some] at heq
    obtain ⟨c, hc, hname⟩ := getElem?_of_lookup h
    rw [← heq, hb] at hc
    cases hc
    exact hne hname

theorem distinct_put (hd : Distinct name l) (a : α) : Distinct name (put name a l) := by
  refine List.nodup_iff_getElem?_ne_getElem?.mpr fun i j hij hj heq => ?_
  rw [List.length_map] at hj
  have hi : i < (put name a l).length := by omega
  have hb := List.getElem?_eq_getElem hi
  have hc := List.getElem?_eq_getElem hj
  simp only [List.getElem?_map, hb, hc, Option.map_some, Option.some.injEq] at heq
  rcases getElem?_put hb with ⟨hpi, hbi⟩ | ⟨hpi, hbi⟩ <;>
    rcases getElem?_put hc with ⟨hpj, hcj⟩ | ⟨hpj, hcj⟩
  · omega
  · rw [hbi] at heq
    exact hpj (by rw [heq, place_of_name hd hcj])
  · rw [hcj] at heq
    exact hpi (by rw [← heq, place_of_name hd hbi])
  · exact absurd (hd.index_eq hbi hcj heq) (by omega)

/-- Any other name is found where it was. -/
theorem lookup_put_of_ne (hd : Distinct name l) (hne : k ≠ name a) :
    lookup name k (put name a l) = lookup name k l := by
  apply Option.ext
  intro i
  rw [(distinct_put hd a).lookup_eq_some, hd.lookup_eq_some]
  constructor
  · rintro ⟨b, hb, rfl⟩
    rcases getElem?_put hb with ⟨-, rfl⟩ | ⟨-, hl⟩
    · exact absurd rfl hne
    · exact ⟨b, hl, rfl⟩
  · rintro ⟨b, hb, rfl⟩
    refine ⟨b, ?_, rfl⟩
    rw [getElem?_put_of_ne (List.getElem?_eq_some_iff.mp hb).1 (ne_place hb hne), hb]

omit [DecidableEq κ] in
theorem Distinct.eraseIdx (hd : Distinct name l) (i : Nat) : Distinct name (l.eraseIdx i) := by
  rw [Distinct, ← List.eraseIdx_map]
  exact List.Nodup.eraseIdx i hd

/-- A removed name is gone. -/
theorem lookup_eraseIdx_self (hd : Distinct name l) (h : lookup name k l = some i) :
    lookup name k (l.eraseIdx i) = none := by
  obtain ⟨b, hb, hname⟩ := getElem?_of_lookup h
  refine lookup_eq_none.mpr fun c hc hck => ?_
  obtain ⟨j, hj⟩ := List.mem_iff_getElem?.mp hc
  rw [List.getElem?_eraseIdx] at hj
  split_ifs at hj with hlt
  · exact absurd (hd.index_eq hj hb (hck.trans hname.symm)) (by omega)
  · exact absurd (hd.index_eq hj hb (hck.trans hname.symm)) (by omega)

/-- The entries that stay are those of the other names, in their order. -/
theorem eraseIdx_eq_filter (hd : Distinct name l) (h : lookup name k l = some i) :
    l.eraseIdx i = l.filter fun b => decide (name b ≠ k) := by
  have herase := @List.eraseP_eq_eraseIdx _ l fun b => decide (name b = k)
  rw [show (l.findIdx? fun b => decide (name b = k)) = some i from h] at herase
  rw [← hd.eraseP_eq k]
  exact herase.symm

theorem entry_eq_none : entry name k l = none ↔ ∀ b ∈ l, name b ≠ k := by
  simp [entry, List.find?_eq_none]

theorem mem_of_entry {b : α} (h : entry name k l = some b) : b ∈ l ∧ name b = k := by
  have hname := List.find?_some (p := fun a => decide (name a = k)) h
  exact ⟨List.mem_of_find?_eq_some h, of_decide_eq_true hname⟩

theorem Distinct.entry_eq_some (hd : Distinct name l) {b : α} :
    entry name k l = some b ↔ b ∈ l ∧ name b = k := by
  constructor
  · exact mem_of_entry
  · rintro ⟨hb, hname⟩
    cases h : entry name k l with
    | none => exact absurd hname (entry_eq_none.mp h b hb)
    | some c =>
      obtain ⟨hc, hck⟩ := mem_of_entry h
      obtain ⟨i, hi⟩ := List.mem_iff_getElem?.mp hb
      obtain ⟨j, hj⟩ := List.mem_iff_getElem?.mp hc
      rw [hd.index_eq hi hj (hname.trans hck.symm), hj] at hi
      rw [Option.some.inj hi]

theorem entry_put_self (hd : Distinct name l) : entry name (name a) (put name a l) = some a :=
  (distinct_put hd a).entry_eq_some.mpr ⟨List.mem_of_getElem? getElem?_put_place, rfl⟩

theorem entry_put_of_ne (hd : Distinct name l) (hne : k ≠ name a) :
    entry name k (put name a l) = entry name k l := by
  apply Option.ext
  intro b
  rw [(distinct_put hd a).entry_eq_some, hd.entry_eq_some]
  constructor
  · rintro ⟨hb, rfl⟩
    rcases mem_put hb with rfl | hb
    · exact absurd rfl hne
    · exact ⟨hb, rfl⟩
  · rintro ⟨hb, rfl⟩
    obtain ⟨j, hj⟩ := List.mem_iff_getElem?.mp hb
    have hput := getElem?_put_of_ne (a := a) (List.getElem?_eq_some_iff.mp hj).1
      (ne_place hj hne)
    exact ⟨List.mem_of_getElem? (hput.trans hj), rfl⟩

theorem entry_eraseIdx_of_ne {k' : κ} (hd : Distinct name l) (h : lookup name k l = some i)
    (hne : k' ≠ k) : entry name k' (l.eraseIdx i) = entry name k' l := by
  apply Option.ext
  intro b
  rw [(hd.eraseIdx i).entry_eq_some, hd.entry_eq_some, eraseIdx_eq_filter hd h]
  simp only [List.mem_filter, ne_eq, decide_eq_true_eq]
  constructor
  · rintro ⟨⟨hb, -⟩, hname⟩
    exact ⟨hb, hname⟩
  · rintro ⟨hb, hname⟩
    exact ⟨⟨hb, fun hk => hne (hname.symm.trans hk)⟩, hname⟩

/-! ### Overwriting several -/

/-- What the new entry has in common with the one it overwrites stays as it was. -/
theorem map_put {β : Type*} {f : α → β} {b : α} (hd : Distinct name l) (hb : b ∈ l)
    (hname : name b = name a) (hf : f b = f a) : (put name a l).map f = l.map f := by
  obtain ⟨i, hi⟩ := List.mem_iff_getElem?.mp hb
  have hlt := (List.getElem?_eq_some_iff.mp hi).1
  have hplace : place name (name a) l = i := by
    rw [← hname]
    exact place_of_name hd hi
  have hmap : (l.map f)[i]? = some (f a) := by rw [List.getElem?_map, hi, Option.map_some, hf]
  obtain ⟨hin, hget⟩ := List.getElem?_eq_some_iff.mp hmap
  rw [put, hplace, if_pos hlt, List.map_set, ← hget]
  exact List.set_getElem_self hin

theorem mem_put_self : a ∈ put name a l := List.mem_of_getElem? getElem?_put_place

theorem mem_put_of_ne {b : α} (hb : b ∈ l) (hne : name b ≠ name a) : b ∈ put name a l := by
  obtain ⟨j, hj⟩ := List.mem_iff_getElem?.mp hb
  have hput := getElem?_put_of_ne (a := a) (List.getElem?_eq_some_iff.mp hj).1 (ne_place hj hne)
  exact List.mem_of_getElem? (hput.trans hj)

variable (name) in
def putAll (s l : List α) : List α := s.foldl (fun l a => put name a l) l

theorem mem_putAll_of_ne {s : List α} {b : α} (hb : b ∈ l) (hne : ∀ a ∈ s, name b ≠ name a) :
    b ∈ putAll name s l := by
  induction s generalizing l with
  | nil => exact hb
  | cons a s ih =>
    have hput := mem_put_of_ne hb (hne a List.mem_cons_self)
    exact ih hput fun c hc => hne c (List.mem_cons_of_mem a hc)

/-- No entry of distinct names is overwritten again. -/
theorem subset_putAll {s : List α} (hs : Distinct name s) : s ⊆ putAll name s l := by
  induction s generalizing l with
  | nil => exact List.nil_subset _
  | cons a s ih =>
    obtain ⟨hnew, hrest⟩ := List.nodup_cons.mp hs
    intro b hb
    rcases List.mem_cons.mp hb with rfl | hb
    · apply mem_putAll_of_ne mem_put_self
      intro c hc heq
      exact hnew (List.mem_map.mpr ⟨c, hc, heq.symm⟩)
    · exact ih hrest hb

/-- Entries of names and kinds that are there leave the names and the kinds as they were. -/
theorem map_putAll {β : Type*} {f : α → β} {s : List α} (hf : ∀ b c, f b = f c → name b = name c)
    (hd : Distinct name l) (hs : ∀ a ∈ s, f a ∈ l.map f) : (putAll name s l).map f = l.map f := by
  induction s generalizing l with
  | nil => rfl
  | cons a s ih =>
    obtain ⟨b, hb, hfb⟩ := List.mem_map.mp (hs a List.mem_cons_self)
    have hput := map_put hd hb (hf b a hfb) hfb
    have hrest := @ih (put name a l) (distinct_put hd a) fun c hc => by
      rw [hput]
      exact hs c (List.mem_cons_of_mem a hc)
    exact hrest.trans hput

/-- A list in which every entry was overwritten holds what was written. -/
theorem perm_putAll {β : Type*} {f : α → β} {s : List α} (hf : ∀ b c, f b = f c → name b = name c)
    (hs : Distinct name s) (hd : Distinct name l) (hperm : (l.map f).Perm (s.map f)) :
    (putAll name s l).Perm s := by
  have hmap : (putAll name s l).map f = l.map f := by
    apply map_putAll hf hd
    intro a ha
    exact hperm.symm.subset (List.mem_map_of_mem ha)
  have hnodup : s.Nodup := List.Nodup.of_map _ hs
  have hlen : (putAll name s l).length = s.length := by
    have hlen := congrArg List.length hmap
    rw [List.length_map, List.length_map] at hlen
    have hperm := hperm.length_eq
    rw [List.length_map, List.length_map] at hperm
    omega
  have hsub : s.Subperm (putAll name s l) := List.subperm_of_subset hnodup (subset_putAll hs)
  exact (hsub.perm_of_length_le (Nat.le_of_eq hlen)).symm

end KeyedList
