import Bristlemouth.Image.Elf

/-!
# What the flat binary holds

No header makes `flat` panic, and what it returns is every loaded section at its place, with one exception:
a section that ends at the top of the address space, whose end does not fit a `u32`.
-/

set_option autoImplicit false

namespace Bristlemouth.Image

open Bytes Checked

/-! ### Reading the headers -/

theorem word_of_le {bytes : Bytes} {i : Nat} (h : i + 4 ≤ bytes.length) : word bytes i = some (u32At bytes i) :=
  if_pos h

theorem half_of_le {bytes : Bytes} {i : Nat} (h : i + 2 ≤ bytes.length) : half bytes i = some (u16At bytes i) :=
  if_pos h

theorem table_safe (elf : Bytes) {offAt sizeAt countAt : Nat} (minSize : Nat) (hoff : offAt + 4 ≤ 52)
    (hsize : sizeAt + 2 ≤ 52) (hcount : countAt + 2 ≤ 52) :
    Safe (table elf offAt sizeAt countAt minSize) fun entries => ∀ e ∈ entries, minSize ≤ e.length := by
  unfold table
  rcases hheader : elf.slice? 0 52 with _ | header
  · exact safe_throw _
  · obtain ⟨-, -, hlen⟩ := slice?_eq_some hheader
    apply safe_lift (word_of_le (by omega))
    apply safe_lift (half_of_le (by omega))
    apply safe_lift (half_of_le (by omega))
    split
    · apply safe_pure
      intro e he
      cases he
    · split
      · exact safe_throw _
      · rename_i hmin
        split
        · exact safe_throw _
        · apply safe_pure
          intro e he
          rw [length_of_mem_chunks he]
          exact Nat.le_of_not_lt hmin

/-- A `PT_LOAD` segment that has the file bytes from `offset` to `stop`. -/
def Holds (offset : UInt32) (stop : Nat) (ph : Bytes) : Prop :=
  u32At ph 0 = ptLoad ∧ (u32At ph 4).toNat ≤ offset.toNat ∧ stop ≤ (u32At ph 4).toNat + (u32At ph 16).toNat

/-- Where these file bytes are loaded: by the first segment that has them, or else at `addr`. -/
inductive LoadsAt (offset : UInt32) (stop : Nat) (addr : UInt32) : List Bytes → UInt32 → Prop
  | held {before after : List Bytes} {ph : Bytes} (hbefore : ∀ other ∈ before, ¬ Holds offset stop other)
      (hph : Holds offset stop ph) :
      LoadsAt offset stop addr (before ++ ph :: after) (u32At ph 12 + (offset - u32At ph 4))
  | own {segments : List Bytes} (hnone : ∀ ph ∈ segments, ¬ Holds offset stop ph) :
      LoadsAt offset stop addr segments addr

theorem LoadsAt.cons {offset load addr : UInt32} {stop : Nat} {ph : Bytes} {segments : List Bytes}
    (hnot : ¬ Holds offset stop ph) (h : LoadsAt offset stop addr segments load) :
    LoadsAt offset stop addr (ph :: segments) load := by
  cases h with
  | held hbefore hph => exact .held (List.forall_mem_cons.mpr ⟨hnot, hbefore⟩) hph
  | own hnone => exact .own (List.forall_mem_cons.mpr ⟨hnot, hnone⟩)

theorem loadAddr_safe (offset : UInt32) (stop : Nat) (addr : UInt32) {segments : List Bytes}
    (h : ∀ ph ∈ segments, phdrSize ≤ ph.length) :
    Safe (loadAddr offset stop addr segments) (LoadsAt offset stop addr segments) := by
  induction segments with
  | nil => exact safe_pure (.own (List.forall_mem_nil _))
  | cons ph segments ih =>
    have hlen : 32 ≤ ph.length := h ph List.mem_cons_self
    have hrest := ih fun other hother => h other (List.mem_cons_of_mem _ hother)
    rw [loadAddr]
    apply safe_lift (word_of_le (by omega))
    split
    · rename_i hkind
      exact hrest.mono fun _ hload => hload.cons fun hholds => hkind hholds.1
    · rename_i hkind
      apply safe_lift (word_of_le (by omega))
      apply safe_lift (word_of_le (by omega))
      apply safe_lift (word_of_le (by omega))
      split
      · rename_i hholds
        refine safe_lift (if_pos hholds.1) (safe_pure ?_)
        exact @LoadsAt.held offset stop addr [] segments ph (List.forall_mem_nil _) ⟨not_not.mp hkind, hholds⟩
      · rename_i hnot
        exact hrest.mono fun _ hload => hload.cons fun hholds => hnot hholds.2

/-- The header of a section that is loaded: it is allocated, it has file contents, and these are not empty. -/
def IsLoaded (sh : Bytes) : Prop := u32At sh 8 &&& shfAlloc ≠ 0 ∧ u32At sh 4 ≠ shtNobits ∧ u32At sh 20 ≠ 0

instance (sh : Bytes) : Decidable (IsLoaded sh) := inferInstanceAs (Decidable (_ ∧ _ ∧ _))

/-- The section of a header: its bytes of the file, at the address where they are loaded. -/
structure Section.Of (elf : Bytes) (segments : List Bytes) (sh : Bytes) (s : Section) : Prop where
  inFile : (u32At sh 16).toNat + (u32At sh 20).toNat ≤ elf.length
  data : s.data = elf.slice (u32At sh 16).toNat (u32At sh 20).toNat
  addr : LoadsAt (u32At sh 16) ((u32At sh 16).toNat + (u32At sh 20).toNat) (u32At sh 12) segments s.addr

/-- Not empty, of a `u32` size, and inside the address space. -/
def Section.Placed (s : Section) : Prop := 0 < s.data.length ∧ s.data.length < 2 ^ 32 ∧ s.stop ≤ 2 ^ 32

theorem loaded_safe (elf : Bytes) {segments : List Bytes} {sh : Bytes}
    (hsegments : ∀ ph ∈ segments, phdrSize ≤ ph.length) (hsh : shdrSize ≤ sh.length) :
    Safe (loaded elf segments sh) fun o =>
      (¬ IsLoaded sh ∧ o = none ∨ IsLoaded sh ∧ ∃ s, o = some s ∧ s.Of elf segments sh ∧ s.Placed) := by
  have hlen : 40 ≤ sh.length := hsh
  unfold loaded
  apply safe_lift (word_of_le (by omega))
  apply safe_lift (word_of_le (by omega))
  apply safe_lift (word_of_le (by omega))
  apply safe_lift (word_of_le (by omega))
  apply safe_lift (word_of_le (by omega))
  split
  · rename_i hskipped
    apply safe_pure
    refine .inl ⟨fun hloaded => ?_, rfl⟩
    rcases hskipped with hflag | hkind | hsize
    · exact hloaded.1 hflag
    · exact hloaded.2.1 hkind
    · exact hloaded.2.2 hsize
  · rename_i hkept
    rw [not_or, not_or] at hkept
    split
    · exact safe_throw _
    · rename_i data hdata
      obtain ⟨hin, hslice, hlen⟩ := slice?_eq_some hdata
      refine (loadAddr_safe _ _ _ hsegments).bind fun load hload => ?_
      split
      · exact safe_throw _
      · rename_i hwrap
        apply safe_pure
        refine .inr ⟨hkept, _, rfl, ⟨hin, hslice, hload⟩, ?_⟩
        have hsize : (u32At sh 20).toNat ≠ 0 := fun hzero => hkept.2.2 (UInt32.toNat_inj.mp hzero)
        have hmost := (u32At sh 20).toNat_lt
        unfold Section.Placed Section.stop
        dsimp only
        omega

theorem loadedAll_safe (elf : Bytes) {segments headers : List Bytes}
    (hsegments : ∀ ph ∈ segments, phdrSize ≤ ph.length) (hheaders : ∀ sh ∈ headers, shdrSize ≤ sh.length) :
    Safe (loadedAll elf segments headers) fun out =>
      List.Forall₂ (Section.Of elf segments) (headers.filter IsLoaded) out ∧ ∀ s ∈ out, s.Placed := by
  induction headers with
  | nil => exact safe_pure ⟨.nil, List.forall_mem_nil _⟩
  | cons sh headers ih =>
    refine (loaded_safe elf hsegments (hheaders sh List.mem_cons_self)).bind fun o ho => ?_
    refine (ih fun other hother => hheaders other (List.mem_cons_of_mem _ hother)).bind fun rest hrest => ?_
    apply safe_pure
    rcases ho with ⟨hnot, rfl⟩ | ⟨hloaded, s, rfl, hof, hplaced⟩
    · rw [List.filter_cons_of_neg (by rw [decide_eq_true_eq]; exact hnot)]
      exact hrest
    · rw [List.filter_cons_of_pos (by rw [decide_eq_true_eq]; exact hloaded)]
      exact ⟨.cons hof hrest.1, List.forall_mem_cons.mpr ⟨hplaced, hrest.2⟩⟩

instance : Std.Total Section.le where
  total a b := Nat.le_total a.addr.toNat b.addr.toNat

instance : IsTrans Section Section.le where
  trans _ _ _ := Nat.le_trans

/-- Sections in address order, none empty and none past the address space. -/
structure Ordered (S : List Section) : Prop where
  order : S.Pairwise Section.le
  placed : ∀ s ∈ S, s.Placed

/-- The sections are those of the headers that are loaded, in address order. -/
def Loads (elf : Bytes) (S : List Section) : Prop :=
  ∃ segments headers found, table elf 28 42 44 phdrSize = some (.ok segments) ∧
    table elf 32 46 48 shdrSize = some (.ok headers) ∧
    List.Forall₂ (Section.Of elf segments) (headers.filter IsLoaded) found ∧ S = found.insertionSort Section.le

theorem sections_safe (elf : Bytes) : Safe (sections elf) fun S => Ordered S ∧ Loads elf S := by
  unfold sections
  split
  · exact safe_throw _
  · split
    · exact safe_throw _
    · refine (table_safe elf phdrSize (by decide) (by decide) (by decide)).eq_ok.bind fun segments hsegments => ?_
      refine (table_safe elf shdrSize (by decide) (by decide) (by decide)).eq_ok.bind fun headers hheaders => ?_
      refine (loadedAll_safe elf hsegments.2 hheaders.2).bind fun out hout => ?_
      apply safe_pure
      exact ⟨⟨List.pairwise_insertionSort _ _, fun s hs => hout.2 s ((List.mem_insertionSort _).mp hs)⟩,
        segments, headers, out, hsegments.1, hheaders.1, hout.1, rfl⟩

/-! ### Laying the sections out -/

/-- `b` starts at or after the end of `a`. -/
def Before (a b : Section) : Prop := a.stop ≤ b.addr.toNat

/-- The section's bytes, from `base` on. -/
def Section.field (base : UInt32) (s : Section) : Nat × Bytes := (s.addr.toNat - base.toNat, s.data)

/-- Some section ends at 2³², and up to it none overlaps another. -/
def ReachesTop (S : List Section) : Prop :=
  ∃ before s after, S = before ++ s :: after ∧ (before ++ [s]).Pairwise Before ∧ s.stop = 2 ^ 32

/-- The end of a section as the loop computes it. -/
theorem addU32_stop {s : Section} (h : s.Placed) :
    addU32 s.addr (UInt32.ofNat s.data.length) = none ∧ s.stop = 2 ^ 32 ∨
      ∃ stop, addU32 s.addr (UInt32.ofNat s.data.length) = some stop ∧ stop.toNat = s.stop ∧ s.stop < 2 ^ 32 := by
  obtain ⟨hpos, hmost, htop⟩ := h
  have hstop : s.stop = s.addr.toNat + s.data.length := rfl
  have hlen : (UInt32.ofNat s.data.length).toNat = s.data.length := by
    rw [UInt32.toNat_ofNat']
    exact Nat.mod_eq_of_lt hmost
  unfold addU32
  rw [hlen]
  by_cases hfit : s.addr.toNat + s.data.length < 2 ^ 32
  · refine .inr ⟨_, if_pos hfit, ?_, by omega⟩
    rw [UInt32.toNat_add, hlen, Nat.mod_eq_of_lt hfit, hstop]
  · exact .inl ⟨if_neg hfit, by omega⟩

theorem subU32_of_le {a b : UInt32} (h : b.toNat ≤ a.toNat) :
    ∃ d, subU32 a b = some d ∧ d.toNat = a.toNat - b.toNat := by
  refine ⟨_, if_pos h, ?_⟩
  exact UInt32.toNat_sub_of_le a b (UInt32.le_iff_toNat_le.mpr h)

/-- A section that lies in the image of `n` bytes at `base`. -/
def Section.Fits (s : Section) (base : UInt32) (n : Nat) : Prop :=
  s.Placed ∧ base.toNat ≤ s.addr.toNat ∧ s.stop ≤ base.toNat + n

/-- One turn of the loop: an overlap, an end that overflows, or on with the rest. -/
theorem lay_cons {base stop : UInt32} {s : Section} {rest : List Section} {out : Bytes}
    (h : s.Fits base out.length) :
    s.addr.toNat < stop.toNat ∧ lay base stop (s :: rest) out = throw (.overlap s.addr) ∨
      stop.toNat ≤ s.addr.toNat ∧ (s.stop = 2 ^ 32 ∧ lay base stop (s :: rest) out = none ∨
        ∃ stop', stop'.toNat = s.stop ∧ s.stop < 2 ^ 32 ∧ lay base stop (s :: rest) out =
          lay base stop' rest (out.copyAt (s.field base).1 (s.field base).2)) := by
  obtain ⟨hplaced, hbase, hroom⟩ := h
  have hstop : s.stop = s.addr.toNat + s.data.length := rfl
  rw [lay]
  by_cases hlow : s.addr.toNat < stop.toNat
  · exact .inl ⟨hlow, if_pos hlow⟩
  · rw [if_neg hlow]
    obtain ⟨gap, hgap, hgapNat⟩ := subU32_of_le hbase
    have hcopy : copyInto out gap.toNat s.data = some (out.copyAt (s.field base).1 (s.field base).2) := by
      rw [hgapNat]
      exact if_pos (by omega)
    rw [hgap, lift_some_bind, hcopy, lift_some_bind]
    refine .inr ⟨Nat.le_of_not_lt hlow, ?_⟩
    obtain ⟨hadd, htop⟩ | ⟨stop', hadd, hstop', hlt⟩ := addU32_stop hplaced
    · rw [hadd]
      exact .inl ⟨htop, rfl⟩
    · rw [hadd]
      exact .inr ⟨stop', hstop', hlt, rfl⟩

/-- The loop panics on the sections that reach the top. -/
theorem lay_panics {base stop : UInt32} {S : List Section} {out : Bytes} (hfits : ∀ s ∈ S, s.Fits base out.length) :
    lay base stop S out = none ↔ ∃ before s after, S = before ++ s :: after ∧
      (before ++ [s]).Pairwise Before ∧ (∀ t ∈ before ++ [s], stop.toNat ≤ t.addr.toNat) ∧ s.stop = 2 ^ 32 := by
  induction S generalizing stop out with
  | nil =>
    refine ⟨fun h => ?_, fun ⟨before, s, after, hS, _⟩ => ?_⟩
    · cases h
    · exact absurd hS.symm (by simp)
  | cons s rest ih =>
    obtain ⟨hlow, hlay⟩ | ⟨hge, ⟨htop, hlay⟩ | ⟨stop', hstop', hlt, hlay⟩⟩ :=
      @lay_cons base stop s rest out (hfits s List.mem_cons_self)
    · rw [hlay]
      refine ⟨fun h => (by cases h), ?_⟩
      rintro ⟨before, t, after, hS, -, hge, -⟩
      have hs : s ∈ before ++ [t] := by
        rcases before with _ | ⟨b, before⟩
        · rw [List.nil_append, List.cons.injEq] at hS
          simp [hS.1]
        · rw [List.cons_append, List.cons.injEq] at hS
          simp [hS.1]
      have := hge s hs
      omega
    · rw [hlay]
      refine ⟨fun _ => ⟨[], s, rest, rfl, List.pairwise_singleton _ _, ?_, htop⟩, fun _ => rfl⟩
      intro t ht
      rw [List.nil_append, List.mem_singleton] at ht
      rw [ht]
      exact hge
    · have hroom : (out.copyAt (s.field base).1 (s.field base).2).length = out.length := by
        obtain ⟨-, hbase, hend⟩ := hfits s List.mem_cons_self
        have hstop : s.stop = s.addr.toNat + s.data.length := rfl
        exact length_copyAt _ _ _ (by dsimp only [Section.field]; omega)
      rw [hlay, ih (by rw [hroom]; exact fun t ht => hfits t (List.mem_cons_of_mem _ ht))]
      constructor
      · rintro ⟨before, t, after, rfl, hapart, hge', htop⟩
        refine ⟨s :: before, t, after, rfl, List.pairwise_cons.mpr ⟨?_, hapart⟩, ?_, htop⟩
        · intro u hu
          have := hge' u hu
          unfold Before
          omega
        · intro u hu
          rcases List.mem_cons.mp hu with rfl | hu
          · exact hge
          · have := hge' u hu
            have : s.stop = s.addr.toNat + s.data.length := rfl
            omega
      · rintro ⟨before, t, after, hS, hapart, -, htop⟩
        rcases before with _ | ⟨b, before⟩
        · rw [List.nil_append, List.cons.injEq] at hS
          rw [← hS.1] at htop
          omega
        · rw [List.cons_append, List.cons.injEq] at hS
          obtain ⟨rfl, rfl⟩ := hS
          rw [List.cons_append, List.pairwise_cons] at hapart
          refine ⟨before, t, after, rfl, hapart.2, ?_, htop⟩
          intro u hu
          rw [hstop']
          exact hapart.1 u hu

/-- When the loop returns, no section overlaps another and each has been copied to its place. -/
theorem lay_ok {base stop : UInt32} {S : List Section} {out out' : Bytes}
    (hfits : ∀ s ∈ S, s.Fits base out.length) (h : lay base stop S out = some (.ok out')) :
    S.Pairwise Before ∧ (∀ s ∈ S, stop.toNat ≤ s.addr.toNat) ∧
      Fields.place (S.map (Section.field base)) out = some out' := by
  induction S generalizing stop out with
  | nil =>
    cases h
    exact ⟨.nil, fun s hs => absurd hs List.not_mem_nil, rfl⟩
  | cons s rest ih =>
    have hs := hfits s List.mem_cons_self
    have hstop : s.stop = s.addr.toNat + s.data.length := rfl
    obtain ⟨-, hlay⟩ | ⟨hge, ⟨-, hlay⟩ | ⟨stop', hstop', -, hlay⟩⟩ := @lay_cons base stop s rest out hs
    · rw [hlay] at h
      cases h
    · rw [hlay] at h
      cases h
    · have hroom : (s.field base).1 + (s.field base).2.length ≤ out.length := by
        obtain ⟨-, hbase, hend⟩ := hs
        dsimp only [Section.field]
        omega
      rw [hlay] at h
      obtain ⟨hapart, hge', hplace⟩ := ih
        (by rw [length_copyAt _ _ _ hroom]; exact fun t ht => hfits t (List.mem_cons_of_mem _ ht)) h
      refine ⟨List.pairwise_cons.mpr ⟨?_, hapart⟩, ?_, ?_⟩
      · intro t ht
        rw [Before, ← hstop']
        exact hge' t ht
      · intro t ht
        rcases List.mem_cons.mp ht with rfl | ht
        · exact hge
        · have := hge' t ht
          omega
      · rw [List.map_cons, Fields.place, if_pos hroom]
        exact hplace

/-- The length before it is checked: the furthest end, from `base` on. -/
theorem imageLen_eq {base : UInt32} {S : List Section} (hplaced : ∀ s ∈ S, s.Placed)
    (hbase : ∀ s ∈ S, base.toNat ≤ s.addr.toNat) :
    ∃ len, imageLen base S = some len ∧ (∀ s ∈ S, s.stop ≤ base.toNat + len) ∧
      (S ≠ [] → ∃ s ∈ S, s.stop = base.toNat + len) := by
  induction S with
  | nil => exact ⟨0, rfl, fun s hs => absurd hs List.not_mem_nil, fun h => absurd rfl h⟩
  | cons s rest ih =>
    obtain ⟨most, hmost, hends, hreached⟩ := ih (fun t ht => hplaced t (List.mem_cons_of_mem _ ht))
      (fun t ht => hbase t (List.mem_cons_of_mem _ ht))
    obtain ⟨-, -, htop⟩ := hplaced s List.mem_cons_self
    have hlow := hbase s List.mem_cons_self
    have hstop : s.stop = s.addr.toNat + s.data.length := rfl
    obtain ⟨gap, hgap, hgapNat⟩ := subU32_of_le hlow
    have hadd : addU64 gap.toNat s.data.length = some (gap.toNat + s.data.length) := if_pos (by omega)
    refine ⟨max (gap.toNat + s.data.length) most, ?_, ?_, ?_⟩
    · rw [imageLen, hgap, Option.bind_eq_bind, Option.bind_some, hadd, Option.bind_eq_bind, Option.bind_some, hmost]
      rfl
    · intro t ht
      rcases List.mem_cons.mp ht with rfl | ht
      · have := Nat.le_max_left (gap.toNat + t.data.length) most
        omega
      · have := hends t ht
        have := Nat.le_max_right (gap.toNat + s.data.length) most
        omega
    · intro _
      by_cases hlast : most ≤ gap.toNat + s.data.length
      · refine ⟨s, List.mem_cons_self, ?_⟩
        rw [Nat.max_eq_left hlast]
        omega
      · have hne : rest ≠ [] := by
          rintro rfl
          cases hmost
          omega
        obtain ⟨t, ht, hend⟩ := hreached hne
        refine ⟨t, List.mem_cons_of_mem _ ht, ?_⟩
        rw [Nat.max_eq_right (by omega)]
        exact hend

/-! ### The image -/

/-- The section has a byte at the address. -/
def Section.Covers (s : Section) (a : Nat) : Prop := s.addr.toNat ≤ a ∧ a < s.stop

/-- The sections pass the checks: one starts at `base`, none below it and none ends more than `maxLen` after it. -/
def Accepted (S : List Section) (base : UInt32) (maxLen : UInt64) : Prop :=
  (∃ s ∈ S, s.addr = base) ∧ ∀ s ∈ S, base.toNat ≤ s.addr.toNat ∧ s.stop ≤ base.toNat + maxLen.toNat

/-- The image of the sections, from `base` on. -/
structure IsImage (S : List Section) (base : UInt32) (fill : UInt8) (maxLen : UInt64) (out : Bytes) : Prop where
  starts : ∃ s ∈ S, s.addr = base
  lowest : ∀ s ∈ S, base.toNat ≤ s.addr.toNat
  covered : ∀ s ∈ S, ∀ i < s.data.length, out[s.addr.toNat - base.toNat + i]? = s.data[i]?
  gaps : ∀ k < out.length, (∀ s ∈ S, ¬ s.Covers (base.toNat + k)) → out[k]? = some fill
  disjoint : S.Pairwise fun a b => ∀ k, ¬ (a.Covers k ∧ b.Covers k)
  reached : ∃ s ∈ S, s.stop = base.toNat + out.length
  furthest : ∀ s ∈ S, s.stop ≤ base.toNat + out.length
  room : out.length ≤ maxLen.toNat

theorem isImage_of_place {S : List Section} {base : UInt32} {fill : UInt8} {maxLen : UInt64} {len : Nat} {out : Bytes}
    (hstarts : ∃ s ∈ S, s.addr = base) (hlowest : ∀ s ∈ S, base.toNat ≤ s.addr.toNat)
    (hbefore : S.Pairwise Before) (hplace : Fields.place (S.map (Section.field base)) (List.replicate len fill) = some out)
    (hreached : ∃ s ∈ S, s.stop = base.toNat + len) (hfurthest : ∀ s ∈ S, s.stop ≤ base.toNat + len)
    (hroom : len ≤ maxLen.toNat) : IsImage S base fill maxLen out := by
  have hapart : (S.map (Section.field base)).Pairwise Fields.Apart := by
    rw [List.pairwise_map]
    refine hbefore.imp_of_mem fun {a b} ha hb h => .inl ?_
    have hstop : a.stop = a.addr.toNat + a.data.length := rfl
    have := hlowest a ha
    unfold Before at h
    dsimp only [Section.field]
    omega
  have hpainted := Fields.place_painted hapart hplace
  have hlen : out.length = len := by rw [hpainted.length, List.length_replicate]
  refine ⟨hstarts, hlowest, ?_, ?_, ?_, ?_, ?_, ?_⟩
  · intro s hs i hi
    exact hpainted.inside _ (List.mem_map_of_mem hs) i hi
  · intro k hk hfree
    rw [hpainted.outside k ?_, List.getElem?_replicate, if_pos (by omega)]
    intro field hmem hcovers
    obtain ⟨s, hs, rfl⟩ := List.mem_map.mp hmem
    have hlow := hlowest s hs
    have hstop : s.stop = s.addr.toNat + s.data.length := rfl
    refine hfree s hs ?_
    unfold Fields.Covers Section.field at hcovers
    unfold Section.Covers
    dsimp only at hcovers
    omega
  · refine hbefore.imp fun {a b} h k hk => ?_
    unfold Before at h
    unfold Section.Covers at hk
    omega
  · rw [hlen]
    exact hreached
  · rw [hlen]
    exact hfurthest
  · omega

/-- The checks and the loop, on sections in address order. -/
theorem flatten_cases {S : List Section} (hS : Ordered S) (base : UInt32) (fill : UInt8) (maxLen : UInt64) :
    (flatten S base fill maxLen = none ↔ Accepted S base maxLen ∧ ReachesTop S) ∧
      ∀ out, flatten S base fill maxLen = some (.ok out) → IsImage S base fill maxLen out := by
  unfold flatten
  rcases hfind : S.find? (fun s => s.addr.toNat < base.toNat) with _ | low
  · simp only [hfind]
    have hlowest : ∀ s ∈ S, base.toNat ≤ s.addr.toNat := by
      intro s hs
      have hnot := List.find?_eq_none.mp hfind s hs
      simpa using hnot
    by_cases hany : S.any (fun s => s.addr = base) = false
    · rw [if_pos hany]
      refine ⟨⟨nofun, ?_⟩, nofun⟩
      rintro ⟨⟨⟨s, hs, haddr⟩, -⟩, -⟩
      have := List.any_eq_false.mp hany s hs
      simp [haddr] at this
    · rw [if_neg hany]
      obtain ⟨s₀, hs₀, haddr₀⟩ := List.any_eq_true.mp (Bool.eq_true_of_not_eq_false hany)
      have hstarts : ∃ s ∈ S, s.addr = base := ⟨s₀, hs₀, of_decide_eq_true haddr₀⟩
      obtain ⟨len, hlen, hfurthest, hreached⟩ := imageLen_eq hS.placed hlowest
      have hreached := hreached (List.ne_nil_of_mem hs₀)
      rw [hlen, lift_some_bind]
      by_cases hlong : maxLen.toNat < len
      · rw [if_pos hlong]
        refine ⟨⟨nofun, ?_⟩, nofun⟩
        rintro ⟨⟨-, hroom⟩, -⟩
        obtain ⟨s, hs, hstop⟩ := hreached
        have := (hroom s hs).2
        omega
      · rw [if_neg hlong]
        have hfits : ∀ s ∈ S, s.Fits base (List.replicate len fill).length := by
          intro s hs
          rw [List.length_replicate]
          exact ⟨hS.placed s hs, hlowest s hs, hfurthest s hs⟩
        constructor
        · rw [lay_panics hfits]
          constructor
          · rintro ⟨before, s, after, hsplit, hbefore, -, htop⟩
            refine ⟨⟨hstarts, fun t ht => ⟨hlowest t ht, ?_⟩⟩, before, s, after, hsplit, hbefore, htop⟩
            have := hfurthest t ht
            omega
          · rintro ⟨-, before, s, after, hsplit, hbefore, htop⟩
            refine ⟨before, s, after, hsplit, hbefore, fun t ht => hlowest t ?_, htop⟩
            rw [hsplit]
            simp only [List.mem_append, List.mem_cons] at ht ⊢
            tauto
        · intro out hout
          obtain ⟨hbefore, -, hplace⟩ := lay_ok hfits hout
          exact isImage_of_place hstarts hlowest hbefore hplace hreached hfurthest (Nat.le_of_not_lt hlong)
  · simp only [hfind]
    refine ⟨⟨nofun, ?_⟩, nofun⟩
    rintro ⟨⟨-, hroom⟩, -⟩
    have hlow := List.find?_some hfind
    have := (hroom low (List.mem_of_find?_eq_some hfind)).1
    rw [decide_eq_true_iff] at hlow
    omega

/-- On any file `flat` comes to an end without a panic, and what it returns is the image of the loaded sections,
just when these do not pass the checks or no section of them reaches the top of the address space. -/
theorem flat_is_image_iff (elf : Bytes) (base : UInt32) (fill : UInt8) (maxLen : UInt64) :
    (∃ r, flat elf base fill maxLen = some r ∧ ∀ out, r = .ok out →
      ∃ S, sections elf = some (.ok S) ∧ Loads elf S ∧ IsImage S base fill maxLen out) ↔
      ¬ ∃ S, sections elf = some (.ok S) ∧ Accepted S base maxLen ∧ ReachesTop S := by
  obtain ⟨r, hsections, hordered⟩ := sections_safe elf
  rcases r with e | S
  · have hflat : flat elf base fill maxLen = some (.error e) := by
      unfold flat
      rw [hsections]
      rfl
    rw [hflat, hsections]
    constructor
    · rintro - ⟨S, hS, -⟩
      cases hS
    · intro _
      refine ⟨_, rfl, fun out h => ?_⟩
      cases h
  · have hflat : flat elf base fill maxLen = flatten S base fill maxLen := by
      unfold flat
      rw [hsections]
      rfl
    obtain ⟨hinOrder, hloads⟩ := hordered S rfl
    obtain ⟨hpanics, himage⟩ := flatten_cases hinOrder base fill maxLen
    rw [hflat, hsections]
    constructor
    · rintro ⟨r, hr, -⟩ ⟨S', hS', htop⟩
      cases hS'
      rw [hpanics.mpr htop] at hr
      cases hr
    · intro hnot
      rcases hr : flatten S base fill maxLen with _ | r
      · exact absurd ⟨S, rfl, hpanics.mp hr⟩ hnot
      · refine ⟨r, rfl, fun out hout => ⟨S, rfl, hloads, himage out ?_⟩⟩
        rw [hr, hout]

/-- A file of one loaded section, the last four bytes of the address space. -/
def topElf : Bytes :=
  [0x7F, 0x45, 0x4C, 0x46, 1, 1] ++ List.replicate 26 0 ++ [52, 0, 0, 0] ++ List.replicate 10 0 ++
    [40, 0, 1, 0, 0, 0] ++
    [0, 0, 0, 0, 1, 0, 0, 0, 2, 0, 0, 0, 0xFC, 0xFF, 0xFF, 0xFF, 92, 0, 0, 0, 4, 0, 0, 0] ++
    List.replicate 16 0 ++ [1, 2, 3, 4]

/-- Its end is 2³², which the loop adds up in a `u32`. -/
theorem flat_panics_at_top : ¬ ∃ r, flat topElf 0xFFFFFFFC 0xFF 16 = some r ∧ ∀ out, r = .ok out →
    ∃ S, sections topElf = some (.ok S) ∧ IsImage S 0xFFFFFFFC 0xFF 16 out := by
  have hnone : Option.isNone (flat topElf 0xFFFFFFFC 0xFF 16) = true := by decide +kernel
  rintro ⟨r, hr, -⟩
  rw [hr] at hnone
  cases hnone

end Bristlemouth.Image
