import BlockLowering.Proofs.ClassLayouts

/-! Tables in the order of their names. Names are compared by code points, and this is the order of
their bytes too: a code point is written as a leading byte and groups of six bits, where a larger
code point has more groups, or a larger leading byte, or as many and a larger group where they
first differ. -/

namespace BlockLowering

namespace Utf8

/-- The bytes of a text. -/
def bytes (s : String) : List UInt8 := s.toUTF8.data.toList

theorem bytes_eq_flatMap (s : String) : bytes s = s.toList.flatMap String.utf8EncodeChar := by
  simp [bytes, ← String.utf8Encode_toList, List.utf8Encode]

/-- A number in groups of six bits: what is left of it after `k` groups stands in the first byte, next
to a mark, and each group in a byte of its own. -/
def grouped (mark : Nat) : Nat → Nat → List UInt8
  | 0, n => [.ofNat (n + mark)]
  | k + 1, n => grouped mark k (n / 64) ++ [.ofNat (n % 64 + 128)]

theorem ofNat_lt_ofNat {m n : Nat} (h : m < n) (hn : n < 256) : UInt8.ofNat m < UInt8.ofNat n := by
  rw [UInt8.lt_iff_toNat_lt, UInt8.toNat_ofNat', UInt8.toNat_ofNat']
  omega

theorem grouped_append_lt {mark k m n : Nat} (h : m < n) (hn : n / 64 ^ k + mark < 256)
    (xs ys : List UInt8) : grouped mark k m ++ xs < grouped mark k n ++ ys := by
  induction k generalizing m n xs ys with
  | zero =>
    simp only [Nat.pow_zero, Nat.div_one] at hn
    exact List.cons_lt_cons_iff.mpr (.inl (ofNat_lt_ofNat (by omega) hn))
  | succ k ih =>
    rw [Nat.pow_succ', ← Nat.div_div_eq_div_mul] at hn
    simp only [grouped, List.append_assoc]
    by_cases hhigh : m / 64 = n / 64
    · have hlow : m % 64 < n % 64 := by omega
      rw [hhigh]
      apply List.append_left_lt
      exact List.cons_lt_cons_iff.mpr (.inl (ofNat_lt_ofNat (by omega) (by omega)))
    · exact ih (by omega) hn _ _

theorem grouped_head (mark k n : Nat) :
    ∃ rest, grouped mark k n = UInt8.ofNat (n / 64 ^ k + mark) :: rest := by
  induction k generalizing n with
  | zero => exact ⟨[], by simp [grouped]⟩
  | succ k ih =>
    obtain ⟨rest, hrest⟩ := ih (n / 64)
    refine ⟨rest ++ [.ofNat (n % 64 + 128)], ?_⟩
    rw [grouped, hrest, Nat.div_div_eq_div_mul, Nat.pow_succ']
    rfl

/-- How many groups a code point takes besides the first byte. -/
def groupsOf (n : Nat) : Nat :=
  if n ≤ 0x7f then 0 else if n ≤ 0x7ff then 1 else if n ≤ 0xffff then 2 else 3

/-- Marks the first byte as the start of that many groups. -/
def markOf : Nat → Nat
  | 0 => 0
  | 1 => 0xc0
  | 2 => 0xe0
  | _ => 0xf0

def leadOf (n : Nat) : Nat := n / 64 ^ groupsOf n + markOf (groupsOf n)

theorem toNat_lt (c : Char) : c.toNat < 0x110000 := by
  have hvalid : c.toNat < 0xd800 ∨ 0xdfff < c.toNat ∧ c.toNat < 0x110000 := c.valid
  omega

theorem encodeChar_eq (c : Char) :
    String.utf8EncodeChar c = grouped (markOf (groupsOf c.toNat)) (groupsOf c.toNat) c.toNat := by
  have hc := toNat_lt c
  simp only [String.utf8EncodeChar, Char.toNat_val]
  generalize c.toNat = n at *
  unfold groupsOf
  split_ifs with h₁ h₂ h₃ <;>
    simp (disch := omega) only [grouped, markOf, Nat.div_div_eq_div_mul, Nat.mod_eq_of_lt,
      List.cons_append, List.nil_append, Nat.add_zero]

theorem leadOf_lt_256 {n : Nat} (h : n < 0x110000) : leadOf n < 256 := by
  unfold leadOf groupsOf
  split_ifs <;> simp only [markOf] <;> omega

theorem leadOf_lt_leadOf {m n : Nat} (h : m < n) (hg : groupsOf m ≠ groupsOf n) :
    leadOf m < leadOf n := by
  unfold leadOf groupsOf at *
  split_ifs at * <;> simp only [markOf] <;> omega

theorem encodeChar_append_lt {c d : Char} (h : c < d) (xs ys : List UInt8) :
    String.utf8EncodeChar c ++ xs < String.utf8EncodeChar d ++ ys := by
  have hcd : c.toNat < d.toNat := h
  have hd : leadOf d.toNat < 256 := leadOf_lt_256 (toNat_lt d)
  rw [encodeChar_eq, encodeChar_eq]
  by_cases hg : groupsOf c.toNat = groupsOf d.toNat
  · rw [hg]
    exact grouped_append_lt hcd hd xs ys
  · obtain ⟨us, hus⟩ := grouped_head (markOf (groupsOf c.toNat)) (groupsOf c.toNat) c.toNat
    obtain ⟨vs, hvs⟩ := grouped_head (markOf (groupsOf d.toNat)) (groupsOf d.toNat) d.toNat
    rw [hus, hvs]
    exact List.cons_lt_cons_iff.mpr (.inl (ofNat_lt_ofNat (leadOf_lt_leadOf hcd hg) hd))

theorem flatMap_encodeChar_lt {cs ds : List Char} (h : cs < ds) :
    cs.flatMap String.utf8EncodeChar < ds.flatMap String.utf8EncodeChar := by
  induction h with
  | @nil d ds =>
    obtain ⟨b, rest, hd⟩ := List.exists_cons_of_ne_nil (@String.utf8EncodeChar_ne_nil d)
    rw [List.flatMap_cons, hd]
    exact List.nil_lt_cons b _
  | rel h => exact encodeChar_append_lt h _ _
  | cons h ih => exact List.append_left_lt ih

theorem bytes_lt_bytes {s t : String} (h : s < t) : bytes s < bytes t := by
  rw [bytes_eq_flatMap, bytes_eq_flatMap]
  exact flatMap_encodeChar_lt (String.lt_iff_toList_lt.mp h)

end Utf8

namespace Table

variable {α : Type}

theorem sorted_perm (t : Table α) : t.sorted.Perm t.entries := List.mergeSort_perm _ _

theorem pairwise_sorted (t : Table α) : t.sorted.Pairwise fun a b => a.1 ≤ b.1 := by
  have h : t.sorted.Pairwise fun a b => decide (a.1 ≤ b.1) := by
    apply List.pairwise_mergeSort
    · intro a b c hab hbc
      simp only [decide_eq_true_eq] at hab hbc ⊢
      exact le_trans hab hbc
    · intro a b
      simpa using le_total a.1 b.1
  simpa using h

/-- No name comes twice, so that the names increase. -/
theorem sorted_increasing {t : Table α} (h : t.keys.Nodup) :
    t.sorted.Pairwise fun a b => a.1 < b.1 := by
  have hkeys : (t.sorted.map (·.1)).Nodup := (t.sorted_perm.map _).nodup_iff.mpr h
  have hne : t.sorted.Pairwise fun a b => a.1 ≠ b.1 := List.pairwise_map.mp hkeys
  exact (t.pairwise_sorted.and hne).imp fun h => lt_of_le_of_ne h.1 h.2

theorem sorted_eq_of_perm {t u : Table α} (h : t.keys.Nodup) (hp : t.entries.Perm u.entries) :
    t.sorted = u.sorted := by
  have hu : u.keys.Nodup := (hp.map _).nodup_iff.mp h
  have hperm : t.sorted.Perm u.sorted := t.sorted_perm.trans (hp.trans u.sorted_perm.symm)
  exact List.Perm.eq_of_pairwise (fun a b _ _ hab hba => absurd hba (lt_asymm hab))
    (sorted_increasing h) (sorted_increasing hu) hperm

end Table

namespace Layout

theorem classes_ofClasses (classes : List Source.Class) : (ofClasses classes).classes =
    .ofList (classes.map fun c => (c.name, .ofFields c.fields)) := by
  induction classes using List.reverseRecOn with
  | nil => rfl
  | append_singleton classes c ih =>
    rw [ofClasses_concat, List.map_append, List.map_singleton, Table.ofList_concat, ← ih]
    rfl

variable {classes : List Source.Class} (h : (classes.map (·.name)).Nodup)
include h

theorem entries_ofClasses : (ofClasses classes).classes.entries =
    classes.map fun c => (c.name, .ofFields c.fields) := by
  rw [classes_ofClasses]
  apply Table.entries_ofList
  rwa [List.map_map]

theorem keys_ofClasses : (ofClasses classes).classes.keys = classes.map (·.name) := by
  rw [Table.keys, entries_ofClasses h, List.map_map]
  rfl

theorem sorted_ofClasses_perm : (ofClasses classes).sorted.Perm
    (classes.map fun c => (c.name, .ofFields c.fields)) :=
  entries_ofClasses h ▸ Table.sorted_perm _

theorem sorted_ofClasses_increasing :
    (ofClasses classes).sorted.Pairwise fun a b => Utf8.bytes a.1 < Utf8.bytes b.1 := by
  have hkeys : (ofClasses classes).classes.keys.Nodup := keys_ofClasses h ▸ h
  exact (Table.sorted_increasing hkeys).imp fun hlt => Utf8.bytes_lt_bytes hlt

theorem sorted_ofClasses_eq {classes' : List Source.Class} (hp : classes.Perm classes') :
    (ofClasses classes).sorted = (ofClasses classes').sorted := by
  have h' : (classes'.map (·.name)).Nodup := (hp.map _).nodup_iff.mp h
  apply Table.sorted_eq_of_perm (keys_ofClasses h ▸ h)
  rw [entries_ofClasses h, entries_ofClasses h']
  exact hp.map _

theorem fields?_ofClasses_eq {classes' : List Source.Class} (hp : classes.Perm classes')
    (name : String) : (ofClasses classes).fields? name = (ofClasses classes').fields? name := by
  have h' : (classes'.map (·.name)).Nodup := (hp.map _).nodup_iff.mp h
  by_cases hc : ∃ c ∈ classes, c.name = name
  · obtain ⟨c, hc, rfl⟩ := hc
    rw [fields?_of_mem h hc, fields?_of_mem h' (hp.mem_iff.mp hc)]
  · have hc' : ¬ ∃ c ∈ classes', c.name = name := by simpa only [hp.mem_iff] using hc
    rw [← isSome_fields?_ofClasses] at hc hc'
    rw [Option.not_isSome_iff_eq_none.mp hc, Option.not_isSome_iff_eq_none.mp hc']

end Layout

end BlockLowering
