import BlockLowering.Proofs.FilledAllocations
import Mathlib.Data.List.Induction

/-! What a layout says about the classes it was computed from. Of several classes with one name the
last one counts, and of several fields with one name the last one too, though the field keeps the
place of the first. Objects are as large as their class has different fields, and the fields fill
them without gaps exactly if no name is declared twice. -/

namespace BlockLowering

open Source (Note Expr)
open Flat (Operand Instr)

namespace Table

variable {α : Type}

theorem keys_insert (t : Table α) (name : String) (value : α) :
    (t.insert name value).keys = if name ∈ t.keys then t.keys else t.keys ++ [name] := by
  obtain ⟨entries⟩ := t
  simp only [insert, keys]
  induction entries with
  | nil => rfl
  | cons e rest ih =>
    obtain ⟨k, v⟩ := e
    by_cases hk : k = name
    · simp [setEntry, hk]
    · simp only [setEntry, if_neg hk, List.map_cons, ih, List.mem_cons, Ne.symm hk, false_or]
      exact apply_ite (k :: ·) _ _ _

theorem ofList_concat (entries : List (String × α)) (e : String × α) :
    ofList (entries ++ [e]) = (ofList entries).insert e.1 e.2 := by
  rw [ofList, List.foldl_append]
  rfl

/-- The names in the order in which they first come in. -/
theorem keys_ofList (entries : List (String × α)) :
    (ofList entries).keys = (entries.map (·.1)).eraseDups := by
  induction entries using List.reverseRecOn with
  | nil => rfl
  | append_singleton entries e ih =>
    rw [ofList_concat, keys_insert, ih, List.map_append, List.eraseDups_append]
    simp only [List.mem_eraseDups, List.map_cons, List.map_nil]
    by_cases h : e.1 ∈ entries.map (·.1)
    · simp [h, List.removeAll]
    · simp [h, List.removeAll, List.eraseDups_cons]

theorem nodup_keys_insert {t : Table α} (h : t.keys.Nodup) (name : String) (value : α) :
    (t.insert name value).keys.Nodup := by
  rw [keys_insert]
  split
  · exact h
  · next hn =>
    rw [← List.concat_eq_append]
    exact h.concat hn

theorem nodup_keys_ofList (entries : List (String × α)) : (ofList entries).keys.Nodup := by
  induction entries using List.reverseRecOn with
  | nil => exact .nil
  | append_singleton entries e ih =>
    rw [ofList_concat]
    exact nodup_keys_insert ih e.1 e.2

theorem get?_eq_some_iff {t : Table α} (h : t.keys.Nodup) {name : String} {value : α} :
    t.get? name = some value ↔ (name, value) ∈ t.entries := by
  obtain ⟨entries⟩ := t
  simp only [get?, keys] at h ⊢
  induction entries with
  | nil => simp [lookup]
  | cons e rest ih =>
    obtain ⟨k, v⟩ := e
    rw [List.map_cons, List.nodup_cons] at h
    by_cases hk : k = name
    · subst hk
      have hnot : (k, value) ∉ rest := fun hm => h.1 (List.mem_map.mpr ⟨_, hm, rfl⟩)
      simp [lookup, hnot, eq_comm]
    · simp [lookup, hk, ih h.2, Ne.symm hk]

end Table

/-- The field called `name` is declared at place `i`, as `d`, and not again after it. -/
structure LastDeclared (fields : List Source.Decl) (name : String) (i : Nat) (d : Source.Decl) :
    Prop where
  declared : fields[i]? = some d
  name_eq : d.name = name
  last (j : Nat) (d' : Source.Decl) : i < j → fields[j]? = some d' → d'.name ≠ name

section

variable {fields : List Source.Decl} {d e : Source.Decl} {name : String} {i : Nat}

theorem lastDeclared_concat_self (he : e.name = name) :
    LastDeclared (fields ++ [e]) name i d ↔ i = fields.length ∧ d = e := by
  constructor
  · rintro ⟨hd, -, hlast⟩
    have hi : i = fields.length := by
      by_contra hne
      have hlt : i < fields.length + 1 := by simpa using (List.getElem?_eq_some_iff.mp hd).1
      exact hlast fields.length e (by omega) List.getElem?_concat_length he
    rw [hi, List.getElem?_concat_length] at hd
    exact ⟨hi, (Option.some.inj hd).symm⟩
  · rintro ⟨rfl, rfl⟩
    refine ⟨List.getElem?_concat_length, he, fun j d' hj hd' => ?_⟩
    rw [List.getElem?_eq_none (by simpa using Nat.succ_le_of_lt hj)] at hd'
    cases hd'

theorem lastDeclared_concat_of_ne (he : e.name ≠ name) :
    LastDeclared (fields ++ [e]) name i d ↔ LastDeclared fields name i d := by
  have hplace : ∀ {k : Nat} {d' : Source.Decl}, d'.name = name →
      ((fields ++ [e])[k]? = some d' ↔ fields[k]? = some d') := by
    intro k d' hname
    rcases Nat.lt_trichotomy k fields.length with hk | rfl | hk
    · rw [List.getElem?_append_left hk]
    · have hne : e ≠ d' := fun h => he (h ▸ hname)
      simp [hne]
    · rw [List.getElem?_eq_none (by simpa using Nat.succ_le_of_lt hk),
        List.getElem?_eq_none (Nat.le_of_lt hk)]
  constructor
  · rintro ⟨hd, hname, hlast⟩
    exact ⟨(hplace hname).mp hd, hname, fun j d' hj hd' hn => hlast j d' hj ((hplace hn).mpr hd') hn⟩
  · rintro ⟨hd, hname, hlast⟩
    exact ⟨(hplace hname).mpr hd, hname, fun j d' hj hd' hn => hlast j d' hj ((hplace hn).mp hd') hn⟩

end

namespace ClassLayout

theorem ofFields_concat (fields : List Source.Decl) (d : Source.Decl) :
    ofFields (fields ++ [d]) =
      (ofFields fields).insert d.name ⟨UInt32.ofNat fields.length, .ofLiteral d.value⟩ := by
  rw [ofFields, List.zipIdx_append, List.map_append]
  simp only [List.zipIdx_singleton, Nat.zero_add, List.map_cons, List.map_nil, Table.ofList_concat]
  rfl

theorem keys_ofFields (fields : List Source.Decl) :
    (ofFields fields).keys = (fields.map (·.name)).eraseDups := by
  have hnames : fields.map (·.name) = (fields.zipIdx.map Prod.fst).map (·.name) := by
    rw [List.zipIdx_map_fst]
  rw [ofFields, Table.keys_ofList, hnames, List.map_map, List.map_map]
  rfl

theorem nodup_keys_ofFields (fields : List Source.Decl) : (ofFields fields).keys.Nodup :=
  Table.nodup_keys_ofList _

/-- A field has the word of its last declaration, and starts from the value given there. -/
theorem get?_ofFields {fields : List Source.Decl} {name : String} {slot : Slot} :
    (ofFields fields).get? name = some slot ↔ ∃ i d, LastDeclared fields name i d ∧
      slot = ⟨UInt32.ofNat i, .ofLiteral d.value⟩ := by
  induction fields using List.reverseRecOn with
  | nil =>
    constructor
    · intro h
      cases h
    · rintro ⟨i, d, hd, -⟩
      cases hd.declared
  | append_singleton fields e ih =>
    rw [ofFields_concat]
    by_cases he : e.name = name
    · simp only [lastDeclared_concat_self he]
      subst he
      simp [eq_comm]
    · simp only [Table.get?_insert_of_ne _ (Ne.symm he), ih, lastDeclared_concat_of_ne he]

variable {fields : List Source.Decl}

theorem size_ofFields : (ofFields fields).size = (ofFields fields).keys.length :=
  (List.length_map _).symm

theorem keys_ofFields_subperm : (ofFields fields).keys.Subperm (fields.map (·.name)) := by
  apply List.subperm_of_subset (nodup_keys_ofFields fields)
  rw [keys_ofFields]
  exact fun name h => List.mem_eraseDups.mp h

theorem size_ofFields_le : (ofFields fields).size ≤ fields.length := by
  have h : (ofFields fields).keys.length ≤ (fields.map (·.name)).length :=
    keys_ofFields_subperm.length_le
  rwa [List.length_map, ← size_ofFields] at h

/-- The words of the fields, in the order of the table. -/
def offsets (t : ClassLayout) : List Nat := t.values.map (·.offset.toNat)

theorem toNat_offset (h : fields.length < 2 ^ 32) {i : Nat} (hi : i < fields.length) :
    (UInt32.ofNat i).toNat = i :=
  UInt32.toNat_ofNat_of_lt' (Nat.lt_trans hi h)

theorem mem_offsets_of_lastDeclared (h : fields.length < 2 ^ 32) {name : String} {i : Nat}
    {d : Source.Decl} (hd : LastDeclared fields name i d) : i ∈ (ofFields fields).offsets := by
  have hslot := get?_ofFields.mpr ⟨i, d, hd, rfl⟩
  rw [Table.get?_eq_some_iff (nodup_keys_ofFields fields)] at hslot
  refine List.mem_map.mpr ⟨_, List.mem_map.mpr ⟨_, hslot, rfl⟩, ?_⟩
  exact toNat_offset h (List.getElem?_eq_some_iff.mp hd.declared).1

theorem offsets_of_nodup (h : fields.length < 2 ^ 32) (hn : (fields.map (·.name)).Nodup) :
    (ofFields fields).offsets = List.range fields.length := by
  rw [offsets, values_ofFields hn, List.map_map, List.range_eq_range', ← List.zipIdx_map_snd 0]
  refine List.map_congr_left fun (d, i) hm => ?_
  exact toNat_offset h (by simpa using List.snd_lt_of_mem_zipIdx hm)

theorem size_of_nodup (h : fields.length < 2 ^ 32) (hn : (fields.map (·.name)).Nodup) :
    (ofFields fields).size = fields.length := by
  have hlen := congrArg List.length (offsets_of_nodup h hn)
  simpa [offsets, Table.values, Table.size] using hlen

/-- The words of the fields are the first ones exactly if no field is declared twice. -/
theorem offsets_eq_range_iff (h : fields.length < 2 ^ 32) :
    (ofFields fields).offsets = List.range (ofFields fields).size ↔
      (fields.map (·.name)).Nodup := by
  constructor
  · intro hoffsets
    have hle : (fields.map (·.name)).length ≤ (ofFields fields).keys.length := by
      rw [List.length_map, ← size_ofFields]
      rcases List.eq_nil_or_concat fields with rfl | ⟨front, e, rfl⟩
      · exact Nat.zero_le _
      · rw [List.concat_eq_append] at h hoffsets ⊢
        have hlast := mem_offsets_of_lastDeclared h
          ((lastDeclared_concat_self rfl).mpr ⟨rfl, rfl⟩)
        rw [hoffsets, List.mem_range] at hlast
        rw [List.length_append]
        exact hlast
    exact (keys_ofFields_subperm.perm_of_length_le hle).nodup_iff.mp (nodup_keys_ofFields fields)
  · intro hn
    rw [size_of_nodup h hn, offsets_of_nodup h hn]

/-- The table of a class with the given fields: its names, its words and the values in them. -/
structure Fits (t : ClassLayout) (fields : List Source.Decl) : Prop where
  keys : t.keys = (fields.map (·.name)).eraseDups
  slots (name : String) (slot : Slot) : t.get? name = some slot ↔
    ∃ i d, LastDeclared fields name i d ∧ slot.offset.toNat = i ∧ slot.initial = .ofLiteral d.value
  apart (name other : String) (slot slot' : Slot) : t.get? name = some slot →
    t.get? other = some slot' → name ≠ other → slot.offset ≠ slot'.offset
  packed : t.offsets = List.range t.size ↔ (fields.map (·.name)).Nodup

theorem fits_ofFields (h : fields.length < 2 ^ 32) : (ofFields fields).Fits fields := by
  have hslots : ∀ name slot, (ofFields fields).get? name = some slot ↔ ∃ i d,
      LastDeclared fields name i d ∧ slot.offset.toNat = i ∧ slot.initial = .ofLiteral d.value := by
    intro name slot
    rw [get?_ofFields]
    refine exists_congr fun i => exists_congr fun d => and_congr_right fun hd => ?_
    have hi := toNat_offset h (List.getElem?_eq_some_iff.mp hd.declared).1
    constructor
    · rintro rfl
      exact ⟨hi, rfl⟩
    · rintro ⟨ho, hv⟩
      obtain ⟨offset, initial⟩ := slot
      obtain rfl : offset = UInt32.ofNat i := UInt32.toNat.inj (ho.trans hi.symm)
      exact congrArg (Slot.mk _) hv
  refine ⟨keys_ofFields fields, hslots, ?_, offsets_eq_range_iff h⟩
  intro name other slot slot' hs hs' hne ho
  obtain ⟨i, d, hd, hi, -⟩ := (hslots name slot).mp hs
  obtain ⟨j, d', hd', hj, -⟩ := (hslots other slot').mp hs'
  obtain rfl : i = j := by rw [← hi, ← hj, ho]
  obtain rfl : d = d' := Option.some.inj (hd.declared.symm.trans hd'.declared)
  exact hne (hd.name_eq.symm.trans hd'.name_eq)

end ClassLayout

namespace Layout

theorem ofClasses_concat (classes : List Source.Class) (c : Source.Class) :
    ofClasses (classes ++ [c]) = (ofClasses classes).insert c.name (.ofFields c.fields) := by
  rw [ofClasses, List.foldl_append]
  rfl

/-- Of several classes with one name the last one counts. -/
theorem fields?_ofClasses (classes : List Source.Class) (name : String) :
    (ofClasses classes).fields? name =
      (classes.reverse.find? (·.name = name)).map fun c => .ofFields c.fields := by
  induction classes using List.reverseRecOn with
  | nil => rfl
  | append_singleton classes c ih =>
    rw [ofClasses_concat, List.reverse_append, List.reverse_singleton, List.singleton_append]
    by_cases hc : c.name = name
    · subst hc
      simp [fields?, insert]
    · rw [List.find?_cons_of_neg (by simpa using hc), ← ih]
      exact Table.get?_insert_of_ne _ (Ne.symm hc) _

theorem isSome_fields?_ofClasses (classes : List Source.Class) (name : String) :
    ((ofClasses classes).fields? name).isSome ↔ ∃ c ∈ classes, c.name = name := by
  rw [fields?_ofClasses, Option.isSome_map, List.find?_isSome]
  simp

/-- A class whose name is not used again has its own table. -/
theorem fields?_of_mem {classes : List Source.Class} (hn : (classes.map (·.name)).Nodup)
    {c : Source.Class} (hc : c ∈ classes) :
    (ofClasses classes).fields? c.name = some (.ofFields c.fields) := by
  have hsome : (classes.reverse.find? (·.name = c.name)).isSome :=
    List.find?_isSome.mpr ⟨c, List.mem_reverse.mpr hc, by simp⟩
  obtain ⟨c', hfind⟩ := Option.isSome_iff_exists.mp hsome
  have hc' : c' ∈ classes := List.mem_reverse.mp (List.mem_of_find?_eq_some hfind)
  have hname : c'.name = c.name := by simpa using List.find?_some hfind
  obtain rfl : c' = c := List.inj_on_of_nodup_map hn hc' hc hname
  rw [fields?_ofClasses, hfind]
  rfl

end Layout

theorem lastDeclared_of_nodup {fields : List Source.Decl} (hn : (fields.map (·.name)).Nodup)
    {i : Nat} {d : Source.Decl} (hd : fields[i]? = some d) : LastDeclared fields d.name i d := by
  refine ⟨hd, rfl, fun j d' hij hd' hname => ?_⟩
  have hi : (fields.map (·.name))[i]? = some d.name := by simp [hd]
  have hj : (fields.map (·.name))[j]? = some d.name := by simp [hd', hname]
  have hlt := (List.getElem?_eq_some_iff.mp hi).1
  exact absurd ((List.getElem?_inj hlt hn).mp (hi.trans hj.symm)) (Nat.ne_of_lt hij)

/-- The classes of a lowered program have the names and the fields of those in the source. -/
theorem exists_source_class {ctx : Context} {p : Source.Program} {q : Flat.Program} {names : Names}
    (h : (flattenProgram ctx p names).result = .ok q) :
    ∀ d ∈ q.classes, ∃ c ∈ p.classes, d.name = c.name ∧ d.fields = c.fields.map .ofSource := by
  obtain ⟨ds, body, functions, classes, _, _, t₁, t₂, t₃, -, -, hc, -, rfl⟩ :=
    flattenProgram_cases (Lower.yields_of_result h)
  refine Lower.each_yields_exists (fun hy => ?_) hc
  obtain ⟨methods, -, rfl⟩ := flattenClass_parts hy
  exact ⟨rfl, rfl⟩

theorem flatten_construct_result {ctx : Context} {className : String} {fields : ClassLayout}
    (h : ctx.layout.fields? className = some fields) (note : Note) (names : Names) :
    (flatten ctx (.construct note className) names).result =
      .ok ⟨newObject ctx note className fields (names.fresh Base.object),
        .operand (.var (names.fresh Base.object))⟩ := by
  have hr : requireClass ctx.layout className note.loc = .ok fields := by
    rw [requireClass, h]
  rw [flatten, flattenConstruct, hr]
  rfl

/-- The layout of classes is exact. A name has a table if a class has that name, and then it is that of
the last such class; a new object has a word for every entry of it. If no two classes and no two
fields of a class have the same name, the fields of lowered classes are their words in order. -/
theorem layout_exact {classes : List Source.Class}
    (hsize : ∀ c ∈ classes, c.fields.length < 2 ^ 32) :
    (∀ name, ((Layout.ofClasses classes).fields? name).isSome ↔ ∃ c ∈ classes, c.name = name) ∧
    (∀ name t, (Layout.ofClasses classes).fields? name = some t →
      (∃ c, classes.reverse.find? (·.name = name) = some c ∧ t.Fits c.fields) ∧
      ∀ settings note names, ∃ x,
        (flatten ⟨.ofClasses classes, settings⟩ (.construct note name) names).result = .ok x ∧
        ∃ words : UInt32, x.prelude.code.head? =
          some (.assign (names.fresh Base.object) (.alloc (.word words))) ∧ words.toNat = t.size) ∧
    ((classes.map (·.name)).Nodup → (∀ c ∈ classes, (c.fields.map (·.name)).Nodup) →
      ∀ p settings names q, p.classes ⊆ classes →
        (flattenProgram ⟨.ofClasses classes, settings⟩ p names).result = .ok q →
        ∀ name d, q.class? name = some d →
          ∃ t, (Layout.ofClasses classes).fields? name = some t ∧ d.fields.length = t.size ∧
            ∀ i v, d.fields[i]? = some v → ∃ slot, t.get? v.name = some slot ∧
              slot.offset.toNat = i ∧ slot.initial = v.value) := by
  refine ⟨Layout.isSome_fields?_ofClasses classes, fun name t ht => ⟨?_, ?_⟩, ?_⟩
  · rw [Layout.fields?_ofClasses] at ht
    obtain ⟨c, hc, rfl⟩ := Option.map_eq_some_iff.mp ht
    have hmem := List.mem_reverse.mp (List.mem_of_find?_eq_some hc)
    exact ⟨c, hc, ClassLayout.fits_ofFields (hsize c hmem)⟩
  · intro settings note names
    obtain ⟨c, hc, -, rfl⟩ := Layout.exists_class ht
    refine ⟨_, flatten_construct_result ht note names, _, rfl, ?_⟩
    exact UInt32.toNat_ofNat_of_lt' (Nat.lt_of_le_of_lt ClassLayout.size_ofFields_le (hsize c hc))
  · intro hn hfields p settings names q hsub hq name d hd
    obtain ⟨c, hc, hname, hf⟩ := exists_source_class hq d (List.mem_of_find?_eq_some hd)
    obtain rfl : d.name = name := by simpa using List.find?_some hd
    have hcn := hfields c (hsub hc)
    have hlen := hsize c (hsub hc)
    refine ⟨_, hname ▸ Layout.fields?_of_mem hn (hsub hc), ?_, fun i v hv => ?_⟩
    · rw [hf, List.length_map, ClassLayout.size_of_nodup hlen hcn]
    · rw [hf, List.getElem?_map] at hv
      obtain ⟨s, hs, rfl⟩ := Option.map_eq_some_iff.mp hv
      refine ⟨_, ClassLayout.get?_ofFields.mpr ⟨i, s, lastDeclared_of_nodup hcn hs, rfl⟩, ?_, rfl⟩
      exact ClassLayout.toNat_offset hlen (List.getElem?_eq_some_iff.mp hs).1

/-- Two classes of one name, the last with a field declared twice, and a plain one between. -/
def Source.threeClasses : List Source.Class :=
  let number (name : String) (n : Int) : Source.Decl := ⟨name, .number, .num n, {}⟩
  [⟨"Point", [number "x" 1], [], {}⟩, ⟨"Pair", [number "left" 4, number "right" 5], [], {}⟩,
    ⟨"Point", [number "y" 6, number "z" 7, number "y" 8], [], {}⟩]

theorem layout_exact_threeClasses :
    (∀ c ∈ Source.threeClasses, c.fields.length < 2 ^ 32) ∧
    (∃ t c, (Layout.ofClasses Source.threeClasses).fields? "Point" = some t ∧
      Source.threeClasses[2]? = some c ∧ t.Fits c.fields ∧ t.offsets = [2, 1]) ∧
    ∃ q d t, (flattenProgram ⟨.ofClasses (Source.threeClasses.take 2), {}⟩
        { classes := Source.threeClasses.take 2 } {}).result = .ok q ∧
      q.class? "Pair" = some d ∧
      (Layout.ofClasses (Source.threeClasses.take 2)).fields? "Pair" = some t ∧
      d.fields.length = t.size ∧ t.offsets = [0, 1] := by
  have h : ∀ c ∈ Source.threeClasses, c.fields.length < 2 ^ 32 := by decide
  have h₂ : ∀ c ∈ Source.threeClasses.take 2, c.fields.length < 2 ^ 32 := by decide
  obtain ⟨c, hc, hfits⟩ := ((layout_exact h).2.1 "Point" _ rfl).1
  obtain ⟨t, ht, hlen, -⟩ := (layout_exact h₂).2.2 (by decide) (by decide)
    { classes := Source.threeClasses.take 2 } {} {} _ (List.Subset.refl _) rfl "Pair" _ rfl
  refine ⟨h, ⟨_, c, rfl, hc.symm.trans rfl ▸ rfl, hfits, by decide⟩, _, _, t, rfl, rfl, ht, hlen, ?_⟩
  cases ht
  decide

end BlockLowering
