import BlockLowering.Proofs.PlainTrees

/-! Decoding what was encoded, for the parts of which documents are made: texts, integers, lists,
records with named fields, and tagged nodes. An encoder and a decoder fit together if the encoder
writes plain trees and the decoder gives the value back wherever it may open all their levels. -/

namespace BlockLowering

open Json (keyed)

theorem ne_of_isDigit {c d : Char} (hc : c.isDigit = true) (hd : d.isDigit = false) : c ≠ d := by
  rintro rfl
  rw [hc] at hd
  exact absurd hd (by decide)

theorem toDigits_isDigit (n : Nat) : ∀ c ∈ Nat.toDigits 10 n, c.isDigit = true :=
  fun _ hc => Nat.isDigit_of_mem_toDigits (by decide) (by decide) hc

theorem exists_toDigits (n : Nat) : ∃ c cs, Nat.toDigits 10 n = c :: cs ∧ c.isDigit = true := by
  cases hcs : Nat.toDigits 10 n with
  | nil => exact absurd hcs Nat.toDigits_ne_nil
  | cons c cs => exact ⟨c, cs, rfl, toDigits_isDigit n c (hcs ▸ List.mem_cons_self)⟩

/-- Every value is written as a plain tree, and decoding that tree gives the value back. -/
structure RoundTrips {α : Type} (encode : α → Json) (decode : Decoder α) : Prop where
  plain (a : α) : (encode a).Plain
  decode_encode (a : α) (levels : Nat) (phase : Phase) (h : (encode a).depth ≤ levels) :
    decode levels phase (encode a) = .ok a

namespace Opened

/-- The record was opened on an object with these members. No two of them have the same name, and
as many levels may be opened as each of them needs. -/
structure Holds (o : Opened) (levels : Nat) (members : List (String × Json)) : Prop where
  levels_eq : o.levels = levels
  contents : o.contents = .members (keyed members) .closed
  distinct : (members.map Prod.fst).Nodup
  fits : ∀ m ∈ members, m.2.depth ≤ levels

theorem occurrences_of_notMem {members : List (String × Json)} {name : String}
    (h : name ∉ members.map Prod.fst) (i : Nat) : occurrences name i (keyed members) = [] := by
  induction members generalizing i with
  | nil => rfl
  | cons m rest ih =>
    rw [List.map_cons, List.mem_cons, not_or] at h
    simp only [keyed, List.map_cons, occurrences, if_neg (Ne.symm h.1)]
    exact ih h.2 (i + 1)

theorem occurrences_of_mem {members : List (String × Json)} {name : String} {j : Json}
    (hd : (members.map Prod.fst).Nodup) (hm : (name, j) ∈ members) (i : Nat) :
    ∃ k, occurrences name i (keyed members) = [(k, j)] := by
  induction members generalizing i with
  | nil => simp at hm
  | cons m rest ih =>
    rw [List.map_cons, List.nodup_cons] at hd
    rcases List.mem_cons.mp hm with rfl | hrest
    · have hnone := occurrences_of_notMem hd.1 (i + 1)
      refine ⟨i, ?_⟩
      simp only [keyed, List.map_cons, occurrences, if_true] at hnone ⊢
      rw [hnone]
    · have hne : m.1 ≠ name := by
        intro he
        exact hd.1 (he ▸ List.mem_map_of_mem hrest)
      simp only [keyed, List.map_cons, occurrences, if_neg hne]
      exact ih hd.2 hrest (i + 1)

theorem strayFault_of_subset {members : List (String × Json)} {fields : List String}
    (h : ∀ m ∈ members, m.1 ∈ fields) (i : Nat) :
    strayFault fields i (keyed members) = .value () := by
  induction members generalizing i with
  | nil => rfl
  | cons m rest ih =>
    have hm := h m List.mem_cons_self
    simp only [keyed, List.map_cons, strayFault, if_pos hm]
    exact ih (fun m' hm' => h m' (List.mem_cons_of_mem _ hm')) (i + 1)

section Holds

variable {α : Type} {o : Opened} {levels : Nat} {members : List (String × Json)}

theorem Holds.field_of {decode : Decoder α} {a : α} (h : o.Holds levels members) (name : String)
    {j : Json} (hm : (name, j) ∈ members)
    (hd : ∀ phase, j.depth ≤ levels → decode levels phase j = .ok a) :
    o.field name decode = .value a := by
  obtain ⟨k, hk⟩ := occurrences_of_mem h.distinct hm 0
  have hj := hd o.phase (h.fits _ hm)
  rw [← h.levels_eq] at hj
  simp only [field, h.contents, hk, hj, Reading.ofExcept]

theorem Holds.field {encode : α → Json} {decode : Decoder α} (h : o.Holds levels members)
    (rt : RoundTrips encode decode) (name : String) (a : α) (hm : (name, encode a) ∈ members) :
    o.field name decode = .value a :=
  h.field_of name hm fun phase hd => rt.decode_encode a levels phase hd

theorem Holds.fieldD {encode : α → Json} {decode : Decoder α} (h : o.Holds levels members)
    (rt : RoundTrips encode decode) (name : String) (a default : α)
    (hm : (name, encode a) ∈ members) : o.fieldD name decode default = .value a := by
  rw [Opened.fieldD, h.contents, h.field rt name a hm]
  rfl

theorem Holds.decode_eq_ok {build : Opened → Reading α} {a : α} (h : o.Holds levels members)
    (hk : members.map Prod.fst = o.shape.fields) (hb : build o = .value a) :
    o.decode build = .ok a := by
  have hstray : strayFault o.shape.fields 0 (keyed members) = .value () := by
    apply strayFault_of_subset
    intro m hm
    rw [← hk]
    exact List.mem_map_of_mem hm
  have hrest : o.rest = .value () := by
    rw [rest, h.contents]
    simp only [hstray]
    rfl
  rw [decode, hrest, hb]
  rfl

end Holds

end Opened

namespace Decoder

variable {α : Type}

theorem struct_eq_ok {n : Nat} {shape : Shape} {members : List (String × Json)}
    {build : Opened → Reading α} {a : α} (hk : members.map Prod.fst = shape.fields)
    (hn : shape.fields.Nodup) (hd : ∀ m ∈ members, m.2.depth ≤ n)
    (hb : ∀ o : Opened, o.Holds n members → build o = .value a) :
    struct n shape (.members (keyed members) .closed) build = .ok a := by
  have h : Opened.Holds ⟨shape, n, .buffered, .members (keyed members) .closed⟩ n members :=
    ⟨rfl, rfl, hk ▸ hn, hd⟩
  exact h.decode_eq_ok hk (hb _ h)

/-- Setting the members of a node aside keeps all of them, in their order. -/
theorem splitTag_keyed {known : List String} {n : Nat} {phase : Phase} {tag : Option String}
    {members : List (String × Json)} (ht : "tag" ∉ members.map Prod.fst)
    (hp : ∀ m ∈ members, m.2.Plain) (hd : ∀ m ∈ members, m.2.depth ≤ n)
    (others : List (Token String × Json)) :
    splitTag known n phase tag others (keyed members) =
      .ok (tag, others.reverse ++ keyed members) := by
  induction members generalizing others with
  | nil => simp [keyed, splitTag]
  | cons m rest ih =>
    rw [List.map_cons, List.mem_cons, not_or] at ht
    have hw := (hp m List.mem_cons_self).whole_eq_ok (hd m List.mem_cons_self)
    have hread : (if phase = .buffered then .ok () else m.2.whole n) = .ok () := by
      split
      · rfl
      · exact hw
    have hrest := ih ht.2 (fun m' hm' => hp m' (List.mem_cons_of_mem _ hm'))
      (fun m' hm' => hd m' (List.mem_cons_of_mem _ hm')) ((.ok m.1, m.2) :: others)
    simp only [keyed, List.map_cons, splitTag, if_neg (Ne.symm ht.1), hread] at hrest ⊢
    rw [hrest]
    simp

theorem openTagged_ofMembers {name tag : String} {known : List String} {n : Nat} {phase : Phase}
    {members : List (String × Json)} (hk : tag ∈ known) (ht : "tag" ∉ members.map Prod.fst)
    (hp : ∀ m ∈ members, m.2.Plain) (hd : ∀ m ∈ members, m.2.depth ≤ n) :
    openTagged name known (n + 1) phase (.ofMembers (("tag", .ofString tag) :: members)) =
      .ok (tag, .members (keyed members) .closed) := by
  have htag : variant known n phase (.ofString tag) = .ok tag := by
    exact if_pos hk
  have hsplit : splitTag known n phase none [] (keyed (("tag", .ofString tag) :: members)) =
      .ok (some tag, keyed members) := by
    simp only [keyed, List.map_cons, splitTag, if_true, htag]
    exact splitTag_keyed ht hp hd []
  rw [Json.ofMembers_eq, openTagged]
  simp only [hsplit]
  rfl

/-- A variant with fields: `next` goes on with the variant called `tag` by decoding a struct. -/
theorem tagged_eq_ok {name tag : String} {known : List String} {levels : Nat} {phase : Phase}
    {members : List (String × Json)} {next : String × Contents → Except DecodeFault α}
    {shape : Shape} {build : Opened → Reading α} {a : α}
    (hd : (Json.ofMembers (("tag", .ofString tag) :: members)).depth ≤ levels)
    (hp : (Json.ofMembers (("tag", .ofString tag) :: members)).Plain) (hk : tag ∈ known)
    (hf : members.map Prod.fst = shape.fields) (hn : ("tag" :: shape.fields).Nodup)
    (hnext : next (tag, .members (keyed members) .closed) =
      struct (levels - 1) shape (.members (keyed members) .closed) build)
    (hb : ∀ o : Opened, o.Holds (levels - 1) members → build o = .value a) :
    (openTagged name known levels phase (.ofMembers (("tag", .ofString tag) :: members)) >>= next) =
      .ok a := by
  obtain ⟨hpos, hfit⟩ := Json.depth_ofMembers_le_iff.mp hd
  obtain ⟨n, rfl⟩ := Nat.exists_eq_add_one.mpr hpos
  have hfit' : ∀ m ∈ members, m.2.depth ≤ n := by
    intro m hm
    exact Nat.lt_succ_iff.mp (hfit m (List.mem_cons_of_mem _ hm))
  have hplain : ∀ m ∈ members, m.2.Plain := by
    intro m hm
    exact Json.plain_ofMembers_iff.mp hp m (List.mem_cons_of_mem _ hm)
  rw [List.nodup_cons] at hn
  rw [openTagged_ofMembers hk (hf ▸ hn.1) hplain hfit']
  exact hnext.trans (struct_eq_ok hf hn.2 hfit' hb)

/-- A variant without fields. -/
theorem tagged_unit_eq_ok {name tag : String} {known : List String} {levels : Nat} {phase : Phase}
    {next : String × Contents → Except DecodeFault α} {a : α}
    (hd : (Json.ofMembers [("tag", .ofString tag)]).depth ≤ levels) (hk : tag ∈ known)
    (hnext : next (tag, .members [] .closed) = .ok a) :
    (openTagged name known levels phase (.ofMembers [("tag", .ofString tag)]) >>= next) =
      .ok a := by
  obtain ⟨hpos, -⟩ := Json.depth_ofMembers_le_iff.mp hd
  obtain ⟨n, rfl⟩ := Nat.exists_eq_add_one.mpr hpos
  rw [openTagged_ofMembers hk (by simp) (by simp) (by simp)]
  exact hnext

theorem choice_ofString {known : List (String × α)} {name : String} {a : α}
    (h : known.lookup name = some a) (levels : Nat) (phase : Phase) :
    choice known levels phase (.ofString name) = .ok a := by
  cases phase with
  | streaming | buffered => simp only [choice, Json.ofString, formed, bind, Except.bind, h]

theorem mapM_encode {encode : α → Json} {decode : Json → Except DecodeFault α} {as : List α}
    (h : ∀ a ∈ as, decode (encode a) = .ok a) : (as.map encode).mapM decode = .ok as := by
  induction as with
  | nil => rfl
  | cons a rest ih =>
    have ha := h a List.mem_cons_self
    have hrest := ih fun a' ha' => h a' (List.mem_cons_of_mem _ ha')
    rw [List.map_cons, List.mapM_cons, ha, hrest]
    rfl

theorem list_eq_ok {encode : α → Json} {decode : Decoder α} {as : List α} {levels : Nat}
    {phase : Phase} (hd : (Json.ofList (as.map encode)).depth ≤ levels)
    (h : ∀ a ∈ as, (encode a).depth < levels → decode (levels - 1) phase (encode a) = .ok a) :
    list decode levels phase (.ofList (as.map encode)) = .ok as := by
  obtain ⟨hpos, hfit⟩ := Json.depth_ofList_le_iff.mp hd
  obtain ⟨n, rfl⟩ := Nat.exists_eq_add_one.mpr hpos
  have hitems : (as.map encode).mapM (decode n phase) = .ok as := by
    apply mapM_encode
    intro a ha
    exact h a ha (hfit _ (List.mem_map_of_mem ha))
  rw [Json.ofList, list, hitems]
  rfl

theorem digitsValue?_digits {cs : List Char} (h : ∀ c ∈ cs, c.isDigit = true) (n : Nat) :
    digitsValue? n cs = some (Nat.ofDigitChars 10 cs n) := by
  induction cs generalizing n with
  | nil => rfl
  | cons c rest ih =>
    have hc := h c List.mem_cons_self
    rw [digitsValue?, if_neg (ne_of_isDigit hc rfl), if_pos hc, Nat.ofDigitChars_cons,
      ih fun c' hc' => h c' (List.mem_cons_of_mem _ hc'), Nat.mul_comm]

theorem parseNat_toDigits (n : Nat) : parseNat (Nat.toDigits 10 n) = .ok n := by
  have hvalue := digitsValue?_digits (toDigits_isDigit n) 0
  rw [Nat.ofDigitChars_ten_toDigits] at hvalue
  obtain ⟨c, cs, hcs, hc⟩ := exists_toDigits n
  have hplus : c ≠ '+' := ne_of_isDigit hc rfl
  have hscore : c ≠ '_' := ne_of_isDigit hc rfl
  rw [hcs] at hvalue ⊢
  simp [parseNat, hplus, hscore, hvalue]

theorem parseInt_toString (n : Int) : parseInt (toString n).toList = .ok n := by
  rw [Int.toString_eq_repr]
  cases n with
  | ofNat m =>
    have hm := parseNat_toDigits m
    obtain ⟨c, cs, hcs, hc⟩ := exists_toDigits m
    have hminus : c ≠ '-' := ne_of_isDigit hc rfl
    rw [Int.repr, Nat.toList_repr]
    rw [hcs] at hm ⊢
    simp [parseInt, hminus, hm, Except.map]
  | negSucc m =>
    have hm := parseNat_toDigits (m + 1)
    obtain ⟨c, cs, hcs, hc⟩ := exists_toDigits (m + 1)
    have hplus : c ≠ '+' := ne_of_isDigit hc rfl
    rw [Int.repr, String.toList_append, Nat.toList_repr]
    rw [hcs] at hm ⊢
    simp [parseInt, hplus, hm, Except.map, Int.negSucc_eq]

end Decoder

namespace RoundTrips

open Decoder

variable {α : Type}

theorem text : RoundTrips Json.ofString Decoder.text where
  plain s := .text s
  decode_encode _ _ _ _ := rfl

theorem bool : RoundTrips Json.bool Decoder.bool where
  plain b := .bool b
  decode_encode _ _ _ _ := rfl

theorem word : RoundTrips (fun n : UInt32 => .ofInt n.toNat) Decoder.word where
  plain n := by
    have h := n.toNat_lt
    exact .integer _ (by omega) (by omega)
  decode_encode n _ _ _ := by
    have h := n.toNat_lt
    have hr : 0 ≤ (n.toNat : Int) ∧ (n.toNat : Int) < UInt32.size := by
      simp only [UInt32.size]
      omega
    rw [Json.ofInt, Decoder.word, if_pos hr]
    simp

theorem integer : RoundTrips (fun n : Int => .ofString (toString n)) Decoder.integer where
  plain _ := .text _
  decode_encode n _ _ _ := by
    rw [Json.ofString, Decoder.integer]
    simp only [parseInt_toString]

theorem list {encode : α → Json} {decode : Decoder α} (rt : RoundTrips encode decode) :
    RoundTrips (fun as => .ofList (as.map encode)) (Decoder.list decode) where
  plain as := by
    apply Json.Plain.list
    intro j hj
    obtain ⟨a, -, rfl⟩ := List.mem_map.mp hj
    exact rt.plain a
  decode_encode as levels phase h :=
    list_eq_ok h fun a _ ha => rt.decode_encode a (levels - 1) phase (Nat.le_sub_one_of_lt ha)

theorem record {shape : Shape} {build : Opened → Reading α} {members : α → List (String × Json)}
    (hn : shape.fields.Nodup) (hf : ∀ a, (members a).map Prod.fst = shape.fields)
    (hp : ∀ a, ∀ m ∈ members a, m.2.Plain)
    (hb : ∀ a levels (o : Opened), o.Holds levels (members a) → build o = .value a) :
    RoundTrips (fun a => .ofMembers (members a)) (Decoder.record shape build) where
  plain a := .object _ (hp a)
  decode_encode a levels phase hd := by
    obtain ⟨hpos, hfit⟩ := Json.depth_ofMembers_le_iff.mp hd
    obtain ⟨n, rfl⟩ := Nat.exists_eq_add_one.mpr hpos
    have h : Opened.Holds ⟨shape, n, phase, .members (keyed (members a)) .closed⟩ n (members a) :=
      ⟨rfl, rfl, hf a ▸ hn, fun m hm => Nat.lt_succ_iff.mp (hfit m hm)⟩
    exact h.decode_eq_ok (hf a) (hb a n _ h)

end RoundTrips

end BlockLowering
