import BlockLowering.Proofs.DocumentRoundTrip

/-! Decoding a source program does not make it deeper. A document may leave fields out and may write
records and nodes as lists; its value, written out in full, opens no more levels than the document
did. Only a program that is nearly empty grows, up to four levels. -/

namespace BlockLowering

namespace Reading

variable {α β : Type}

theorem map_eq_value {f : α → β} {r : Reading α} {b : β} :
    f <$> r = value b ↔ ∃ a, r = value a ∧ f a = b := by
  cases r <;> simp [Functor.map, map]

theorem seq_eq_value {rf : Reading (α → β)} {r : Reading α} {b : β} :
    rf <*> r = value b ↔ ∃ f a, rf = value f ∧ r = value a ∧ f a = b := by
  constructor
  · intro h
    change apply rf r = value b at h
    unfold apply at h
    split at h
    · split at h <;> cases h
    all_goals first | exact ⟨_, _, rfl, rfl, value.inj h⟩ | cases h
  · rintro ⟨f, a, rfl, rfl, rfl⟩
    rfl

theorem toExcept_eq_ok {r : Reading α} {a : α} : r.toExcept = .ok a ↔ r = value a := by
  cases r <;> simp [toExcept]

theorem ofExcept_eq_value {p : Nat} {x : Except DecodeFault α} {a : α} :
    ofExcept p x = value a ↔ x = .ok a := by
  cases x <;> simp [ofExcept]

end Reading

/-- The values among which the fields of an opened record are found. -/
def Contents.values : Contents → List Json
  | .items vs _ => vs
  | .members ms _ => ms.map Prod.snd

namespace Opened

variable {α : Type} {o : Opened} {name : String} {decode : Decoder α} {a : α}

theorem mem_of_mem_occurrences {members : List (Token String × Json)} {i k : Nat} {j : Json}
    (h : (k, j) ∈ occurrences name i members) : j ∈ members.map Prod.snd := by
  induction members generalizing i with
  | nil => simp [occurrences] at h
  | cons m rest ih =>
    obtain ⟨key, value⟩ := m
    rw [List.map_cons, List.mem_cons]
    simp only [occurrences] at h
    split at h
    · split at h
      · rcases List.mem_cons.mp h with he | hrest
        · exact .inl (Prod.ext_iff.mp he).2
        · exact .inr (ih hrest)
      · exact .inr (ih h)
    · exact .inr (ih h)

theorem exists_of_field (h : o.field name decode = .value a) :
    ∃ j ∈ o.contents.values, decode o.levels o.phase j = .ok a := by
  unfold field at h
  split at h
  · next items stop hc =>
    rw [hc]
    dsimp only at h
    split at h
    · next item hi =>
      exact ⟨item, List.mem_of_getElem? hi, Reading.ofExcept_eq_value.mp h⟩
    · cases h
  · next members stop hc =>
    rw [hc]
    split at h
    · cases h
    · next i value ho =>
      refine ⟨value, mem_of_mem_occurrences (ho ▸ List.mem_cons_self), ?_⟩
      exact Reading.ofExcept_eq_value.mp h
    · split at h <;> cases h

theorem exists_of_fieldD {default : α} (h : o.fieldD name decode default = .value a) :
    a = default ∨ ∃ j ∈ o.contents.values, decode o.levels o.phase j = .ok a := by
  unfold fieldD at h
  split at h
  · split at h
    · exact .inr (exists_of_field h)
    · exact .inl (Reading.value.inj h).symm
  · cases hf : o.field name decode with
    | fault p e => rw [hf] at h; cases h
    | missing n => rw [hf] at h; exact .inl (Reading.value.inj h).symm
    | value a' =>
      rw [hf] at h
      exact .inr (exists_of_field (hf.trans h))

theorem build_eq_value {build : Opened → Reading α} (h : o.decode build = .ok a) :
    build o = .value a := by
  obtain ⟨f, a', hf, ha, he⟩ := Reading.seq_eq_value.mp (Reading.toExcept_eq_ok.mp h)
  obtain ⟨u, -, rfl⟩ := Reading.map_eq_value.mp hf
  exact he ▸ ha

end Opened

namespace Decoder

variable {α : Type}

theorem bind_eq_ok {ε α β : Type} {x : Except ε α} {f : α → Except ε β} {b : β} :
    (x >>= f) = .ok b ↔ ∃ a, x = .ok a ∧ f a = .ok b := by
  cases x <;> simp [bind, Except.bind]

theorem exists_of_mapM {decode : Json → Except DecodeFault α} {items : List Json} {as : List α}
    (h : items.mapM decode = .ok as) : ∀ a ∈ as, ∃ v ∈ items, decode v = .ok a := by
  induction items generalizing as with
  | nil =>
    cases h
    simp
  | cons item rest ih =>
    rw [List.mapM_cons] at h
    obtain ⟨b, hb, h⟩ := bind_eq_ok.mp h
    obtain ⟨bs, hbs, h⟩ := bind_eq_ok.mp h
    cases h
    intro a ha
    rcases List.mem_cons.mp ha with rfl | hrest
    · exact ⟨item, List.mem_cons_self, hb⟩
    · obtain ⟨v, hv, hd⟩ := ih hbs a hrest
      exact ⟨v, List.mem_cons_of_mem _ hv, hd⟩

theorem wrongType_ne_ok {j : Json} {expected : String} {a : α} :
    wrongType j expected ≠ .ok a := by
  unfold wrongType
  split <;> simp

theorem unit_eq_ok {a b : α} {contents : Contents} (h : unit b contents = .ok a) : a = b := by
  unfold unit at h
  split at h
  · exact (Except.ok.inj h).symm
  · cases h
  · exact (Except.ok.inj h).symm

/-- A record is opened one level above its fields. -/
theorem exists_of_record {shape : Shape} {build : Opened → Reading α} {levels : Nat}
    {phase : Phase} {j : Json} {a : α} (h : record shape build levels phase j = .ok a) :
    0 < j.depth ∧ ∃ o : Opened, (∀ v ∈ o.contents.values, v.depth < j.depth) ∧
      build o = .value a := by
  unfold record at h
  split at h
  · next items stop =>
    split at h
    · cases h
    · refine ⟨by simp [Json.depth], _, ?_, Opened.build_eq_value h⟩
      exact fun v hv => Json.depth_lt_of_mem_items hv
  · next members stop =>
    split at h
    · cases h
    · refine ⟨by simp [Json.depth], _, ?_, Opened.build_eq_value h⟩
      intro v hv
      obtain ⟨m, hm, rfl⟩ := List.mem_map.mp hv
      exact Json.depth_lt_of_mem_members hm
  · exact absurd h wrongType_ne_ok

theorem splitTag_subset {known : List String} {n : Nat} {phase : Phase} {tag tag' : Option String}
    {others others' members : List (Token String × Json)}
    (h : splitTag known n phase tag others members = .ok (tag', others')) :
    ∀ m ∈ others', m ∈ others ∨ m ∈ members := by
  induction members generalizing tag others with
  | nil =>
    simp only [splitTag, Except.ok.injEq, Prod.mk.injEq] at h
    intro m hm
    exact .inl (List.mem_reverse.mp (h.2 ▸ hm))
  | cons head rest ih =>
    obtain ⟨key, value⟩ := head
    cases key with
    | error f => cases h
    | ok key =>
      simp only [splitTag] at h
      intro m hm
      split at h
      · split at h
        · cases h
        · split at h
          · rcases ih h m hm with ho | hr
            · exact .inl ho
            · exact .inr (List.mem_cons_of_mem _ hr)
          · cases h
      · split at h
        · rcases ih h m hm with ho | hr
          · rcases List.mem_cons.mp ho with rfl | ho
            · exact .inr List.mem_cons_self
            · exact .inl ho
          · exact .inr (List.mem_cons_of_mem _ hr)
        · cases h

/-- A node is a list with the tag in front, or an object whose members are set aside. -/
theorem openTagged_cases {name tag : String} {known : List String} {levels : Nat}
    {phase : Phase} {j : Json} {contents : Contents}
    (h : openTagged name known levels phase j = .ok (tag, contents)) :
    (∃ first rest stop, j = .list (first :: rest) stop ∧ contents = .items rest .closed) ∨
      ∃ members others stop n, j = .object members stop ∧ contents = .members others .closed ∧
        splitTag known n phase none [] members = .ok (some tag, others) := by
  unfold openTagged at h
  split at h
  · next items stop =>
    left
    split at h
    · cases h
    · split at h
      · obtain ⟨_, _, h⟩ := bind_eq_ok.mp h
        cases h
      · next first rest =>
        obtain ⟨_, _, h⟩ := bind_eq_ok.mp h
        dsimp only at h
        split at h
        · obtain ⟨_, _, h⟩ := bind_eq_ok.mp h
          obtain ⟨_, _, h⟩ := bind_eq_ok.mp h
          cases h
          exact ⟨first, rest, stop, rfl, rfl⟩
        · cases h
          exact ⟨first, rest, stop, rfl, rfl⟩
  · next members stop =>
    right
    split at h
    · cases h
    · next n =>
      obtain ⟨⟨tag', others⟩, hs, h⟩ := bind_eq_ok.mp h
      obtain ⟨_, _, h⟩ := bind_eq_ok.mp h
      cases tag' with
      | none => cases h
      | some tag' =>
        cases h
        exact ⟨members, others, stop, n, rfl, rfl, hs⟩
  · exact absurd h wrongType_ne_ok

/-- A node is opened one level above its fields. -/
theorem depth_of_openTagged {name tag : String} {known : List String} {levels : Nat}
    {phase : Phase} {j : Json} {contents : Contents}
    (h : openTagged name known levels phase j = .ok (tag, contents)) :
    0 < j.depth ∧ ∀ v ∈ contents.values, v.depth < j.depth := by
  obtain ⟨first, rest, stop, rfl, rfl⟩ | ⟨members, others, stop, n, rfl, rfl, hs⟩ :=
    openTagged_cases h
  · refine ⟨by simp [Json.depth], fun v hv => ?_⟩
    exact Json.depth_lt_of_mem_items (List.mem_cons_of_mem first hv)
  · refine ⟨by simp [Json.depth], fun v hv => ?_⟩
    obtain ⟨m, hm, rfl⟩ := List.mem_map.mp hv
    rcases splitTag_subset hs m hm with hnil | hmem
    · cases hnil
    · exact Json.depth_lt_of_mem_members hmem

end Decoder

/-- What a value is written as is no deeper than the tree it was decoded from, nor than the given
number of levels. -/
def NeverDeepens {α : Type} (least : Nat) (encode : α → Json) (decode : Decoder α) : Prop :=
  ∀ (levels : Nat) (phase : Phase) (j : Json) (a : α), decode levels phase j = .ok a →
    (encode a).depth ≤ max least j.depth

section NeverDeepens

variable {α : Type} {encode : α → Json} {decode : Decoder α} {least : Nat}

theorem Decoder.exists_of_list {levels : Nat} {phase : Phase} {j : Json} {as : List α}
    (h : Decoder.list decode levels phase j = .ok as) :
    0 < j.depth ∧ ∀ a ∈ as, ∃ n v, v.depth < j.depth ∧ decode n phase v = .ok a := by
  unfold Decoder.list at h
  split at h
  · next items stop =>
    refine ⟨by simp [Json.depth], fun a ha => ?_⟩
    split at h
    · cases h
    · next n =>
      obtain ⟨values, hvalues, h⟩ := bind_eq_ok.mp h
      obtain ⟨_, _, h⟩ := bind_eq_ok.mp h
      cases h
      obtain ⟨v, hv, hd⟩ := exists_of_mapM hvalues a ha
      exact ⟨n, v, Json.depth_lt_of_mem_items hv, hd⟩
  · exact absurd h wrongType_ne_ok

theorem NeverDeepens.list (h : NeverDeepens least encode decode) :
    NeverDeepens (least + 1) (fun as => .ofList (as.map encode)) (Decoder.list decode) := by
  intro levels phase j as hj
  obtain ⟨hpos, hitems⟩ := Decoder.exists_of_list hj
  rw [Json.depth_ofList_le_iff, List.forall_mem_map]
  refine ⟨by omega, fun a ha => ?_⟩
  obtain ⟨n, v, hv, hd⟩ := hitems a ha
  have hle := h n phase v a hd
  omega

/-- The list itself opens a level, so an empty one is no exception. -/
theorem NeverDeepens.list_zero (h : NeverDeepens 0 encode decode) :
    NeverDeepens 0 (fun as => .ofList (as.map encode)) (Decoder.list decode) := by
  intro levels phase j as hj
  have hle := h.list levels phase j as hj
  have hpos := (Decoder.exists_of_list hj).1
  omega

variable {o : Opened} {d : Nat} {name : String} {a : α}

theorem NeverDeepens.field (h : NeverDeepens 0 encode decode)
    (hv : ∀ v ∈ o.contents.values, v.depth < d) (hf : o.field name decode = .value a) :
    (encode a).depth < d := by
  obtain ⟨v, hmem, hd⟩ := Opened.exists_of_field hf
  have hlt := hv v hmem
  have hle := h _ _ v a hd
  omega

/-- A list that is left out is written as an empty one, which opens a level. -/
theorem NeverDeepens.listD {as : List α} (h : NeverDeepens least encode decode)
    (hv : ∀ v ∈ o.contents.values, v.depth < d)
    (hf : o.fieldD name (Decoder.list decode) [] = .value as) :
    (Json.ofList (as.map encode)).depth < max (least + 2) d := by
  rcases Opened.exists_of_fieldD hf with rfl | ⟨v, hmem, hd⟩
  · have hempty : (Json.ofList (([] : List α).map encode)).depth = 1 := rfl
    omega
  · have hlt := hv v hmem
    have hle : (Json.ofList (as.map encode)).depth ≤ max (least + 1) v.depth := h.list _ _ v as hd
    omega

end NeverDeepens

namespace Source

open Decoder (bind_eq_ok depth_of_openTagged exists_of_record unit_eq_ok)
open Json (depth_ofMembers_le_iff)
open Opened (build_eq_value)
open BlockLowering.Reading (map_eq_value seq_eq_value)

theorem Ty.neverDeepens : NeverDeepens 0 Ty.encode Ty.decode := by
  intro levels
  induction levels with
  | zero =>
    intro phase j t h
    obtain ⟨_, _, h⟩ := bind_eq_ok.mp h
    cases h
  | succ n ih =>
    intro phase j t h
    have hsub : NeverDeepens 0 Ty.encode fun _ => Ty.decode n := fun _ => ih
    obtain ⟨⟨tag, contents⟩, hopen, h⟩ := bind_eq_ok.mp h
    obtain ⟨hpos, hv⟩ := depth_of_openTagged hopen
    dsimp only at h
    split at h
    · rw [unit_eq_ok h]
      simpa [Ty.encode, depth_ofMembers_le_iff] using hpos
    · rw [unit_eq_ok h]
      simpa [Ty.encode, depth_ofMembers_le_iff] using hpos
    · rw [unit_eq_ok h]
      simpa [Ty.encode, depth_ofMembers_le_iff] using hpos
    · obtain ⟨name, -, rfl⟩ := map_eq_value.mp (build_eq_value h)
      simpa [Ty.encode, depth_ofMembers_le_iff] using hpos
    · obtain ⟨elem, helem, rfl⟩ := map_eq_value.mp (build_eq_value h)
      have hlt := hsub.field hv helem
      simpa [Ty.encode, depth_ofMembers_le_iff] using ⟨hpos, hlt⟩

theorem Loc.encode_depth (loc : Loc) : loc.encode.depth = 1 := by
  simp [Loc.encode, Json.ofMembers, Json.depth, Json.membersDepth]

theorem Note.neverDeepens : NeverDeepens 0 Note.encode Note.decode := by
  intro levels phase j note h
  obtain ⟨hpos, o, hv, hb⟩ := exists_of_record h
  obtain ⟨_, loc, hf, -, rfl⟩ := seq_eq_value.mp hb
  obtain ⟨ty, hty, rfl⟩ := map_eq_value.mp hf
  have hlt := Ty.neverDeepens.field hv hty
  have hone : 1 < j.depth := Nat.lt_of_le_of_lt ty.encode_depth_pos hlt
  simp [Note.encode, depth_ofMembers_le_iff, Loc.encode_depth, hpos, hone, hlt]

theorem Literal.encode_depth (l : Literal) : l.encode.depth = 1 := by
  cases l <;> simp [Literal.encode, Json.ofMembers, Json.depth, Json.membersDepth]

theorem Literal.neverDeepens : NeverDeepens 0 Literal.encode Literal.decode := by
  intro levels phase j l h
  obtain ⟨⟨tag, contents⟩, hopen, -⟩ := bind_eq_ok.mp h
  have hpos := (depth_of_openTagged hopen).1
  rw [l.encode_depth]
  omega

@[simp] theorem UnaryOp.encode_depth (op : UnaryOp) : op.encode.depth = 0 :=
  Json.depth_ofString op.key

@[simp] theorem BinaryOp.encode_depth (op : BinaryOp) : op.encode.depth = 0 :=
  Json.depth_ofString op.key

theorem Expr.neverDeepens : NeverDeepens 0 Expr.encode Expr.decode := by
  intro levels
  induction levels with
  | zero =>
    intro phase j e h
    obtain ⟨_, _, h⟩ := bind_eq_ok.mp h
    cases h
  | succ n ih =>
    intro phase j e h
    have hsub : NeverDeepens 0 Expr.encode fun _ => Expr.decode n := fun _ => ih
    have hnotes := Note.neverDeepens
    obtain ⟨⟨tag, contents⟩, hopen, h⟩ := bind_eq_ok.mp h
    obtain ⟨hpos, hv⟩ := depth_of_openTagged hopen
    dsimp only at h
    split at h
    all_goals
      have hb := build_eq_value h
      simp only [seq_eq_value, map_eq_value] at hb
    · obtain ⟨_, arg, ⟨_, op, ⟨note, hnote, rfl⟩, -, rfl⟩, harg, rfl⟩ := hb
      simp [Expr.encode, depth_ofMembers_le_iff, hpos, hnotes.field hv hnote, hsub.field hv harg]
    · obtain ⟨_, right, ⟨_, left, ⟨_, op, ⟨note, hnote, rfl⟩, -, rfl⟩, hl, rfl⟩, hr, rfl⟩ := hb
      simp [Expr.encode, depth_ofMembers_le_iff, hpos, hnotes.field hv hnote, hsub.field hv hl,
        hsub.field hv hr]
    · obtain ⟨_, arg, ⟨_, name, ⟨note, hnote, rfl⟩, -, rfl⟩, harg, rfl⟩ := hb
      simp [Expr.encode, depth_ofMembers_le_iff, hpos, hnotes.field hv hnote, hsub.field hv harg]
    · obtain ⟨_, right, ⟨_, left, ⟨_, name, ⟨note, hnote, rfl⟩, -, rfl⟩, hl, rfl⟩, hr, rfl⟩ := hb
      simp [Expr.encode, depth_ofMembers_le_iff, hpos, hnotes.field hv hnote, hsub.field hv hl,
        hsub.field hv hr]
    · obtain ⟨_, args, ⟨_, name, ⟨note, hnote, rfl⟩, -, rfl⟩, hargs, rfl⟩ := hb
      simp [Expr.encode, Expr.encodeAll_eq, depth_ofMembers_le_iff, hpos, hnotes.field hv hnote,
        hsub.list_zero.field hv hargs]
    · obtain ⟨_, args, ⟨_, name, ⟨_, obj, ⟨note, hnote, rfl⟩, ho, rfl⟩, -, rfl⟩, hargs, rfl⟩ := hb
      simp [Expr.encode, Expr.encodeAll_eq, depth_ofMembers_le_iff, hpos, hnotes.field hv hnote,
        hsub.field hv ho, hsub.list_zero.field hv hargs]
    · obtain ⟨_, name, ⟨_, obj, ⟨note, hnote, rfl⟩, ho, rfl⟩, -, rfl⟩ := hb
      simp [Expr.encode, depth_ofMembers_le_iff, hpos, hnotes.field hv hnote, hsub.field hv ho]
    · obtain ⟨_, index, ⟨_, obj, ⟨note, hnote, rfl⟩, ho, rfl⟩, hi, rfl⟩ := hb
      simp [Expr.encode, depth_ofMembers_le_iff, hpos, hnotes.field hv hnote, hsub.field hv ho,
        hsub.field hv hi]
    · obtain ⟨_, name, ⟨note, hnote, rfl⟩, -, rfl⟩ := hb
      simp [Expr.encode, depth_ofMembers_le_iff, hpos, hnotes.field hv hnote]
    · obtain ⟨_, elements, ⟨note, hnote, rfl⟩, helements, rfl⟩ := hb
      simp [Expr.encode, Expr.encodeAll_eq, depth_ofMembers_le_iff, hpos, hnotes.field hv hnote,
        hsub.list_zero.field hv helements]
    · obtain ⟨_, name, ⟨note, hnote, rfl⟩, -, rfl⟩ := hb
      simp [Expr.encode, depth_ofMembers_le_iff, hpos, hnotes.field hv hnote]
    · obtain ⟨_, value, ⟨note, hnote, rfl⟩, hvalue, rfl⟩ := hb
      simp [Expr.encode, depth_ofMembers_le_iff, hpos, hnotes.field hv hnote,
        Literal.neverDeepens.field hv hvalue]

theorem Stmt.neverDeepens : NeverDeepens 0 Stmt.encode Stmt.decode := by
  intro levels
  induction levels with
  | zero =>
    intro phase j s h
    obtain ⟨_, _, h⟩ := bind_eq_ok.mp h
    cases h
  | succ n ih =>
    intro phase j s h
    have hsub : NeverDeepens 0 Stmt.encode fun _ => Stmt.decode n := fun _ => ih
    have hnotes := Note.neverDeepens
    have hexprs := Expr.neverDeepens
    obtain ⟨⟨tag, contents⟩, hopen, h⟩ := bind_eq_ok.mp h
    obtain ⟨hpos, hv⟩ := depth_of_openTagged hopen
    dsimp only at h
    split at h
    all_goals
      have hb := build_eq_value h
      simp only [seq_eq_value, map_eq_value] at hb
    · obtain ⟨_, value, ⟨_, name, ⟨note, hnote, rfl⟩, -, rfl⟩, hvalue, rfl⟩ := hb
      simp [Stmt.encode, depth_ofMembers_le_iff, hpos, hnotes.field hv hnote,
        hexprs.field hv hvalue]
    · obtain ⟨_, value, ⟨note, hnote, rfl⟩, hvalue, rfl⟩ := hb
      simp [Stmt.encode, depth_ofMembers_le_iff, hpos, hnotes.field hv hnote,
        hexprs.field hv hvalue]
    · obtain ⟨_, e, ⟨note, hnote, rfl⟩, he, rfl⟩ := hb
      simp [Stmt.encode, depth_ofMembers_le_iff, hpos, hnotes.field hv hnote, hexprs.field hv he]
    · obtain ⟨note, hnote, rfl⟩ := hb
      simp [Stmt.encode, depth_ofMembers_le_iff, hpos, hnotes.field hv hnote]
    · obtain ⟨_, value, ⟨_, name, ⟨_, obj, ⟨note, hnote, rfl⟩, ho, rfl⟩, -, rfl⟩, hvalue, rfl⟩ := hb
      simp [Stmt.encode, depth_ofMembers_le_iff, hpos, hnotes.field hv hnote, hexprs.field hv ho,
        hexprs.field hv hvalue]
    · obtain ⟨_, value, ⟨_, i, ⟨_, obj, ⟨note, hnote, rfl⟩, ho, rfl⟩, hi, rfl⟩, hvalue, rfl⟩ := hb
      simp [Stmt.encode, depth_ofMembers_le_iff, hpos, hnotes.field hv hnote, hexprs.field hv ho,
        hexprs.field hv hi, hexprs.field hv hvalue]
    · obtain ⟨_, e, ⟨_, t, ⟨_, cond, ⟨note, hnote, rfl⟩, hcond, rfl⟩, ht, rfl⟩, he, rfl⟩ := hb
      simp [Stmt.encode, Stmt.encodeAll_eq, depth_ofMembers_le_iff, hpos, hnotes.field hv hnote,
        hexprs.field hv hcond, hsub.list_zero.field hv ht, hsub.list_zero.field hv he]
    · obtain ⟨_, body, ⟨_, cond, ⟨note, hnote, rfl⟩, hcond, rfl⟩, hbody, rfl⟩ := hb
      simp [Stmt.encode, Stmt.encodeAll_eq, depth_ofMembers_le_iff, hpos, hnotes.field hv hnote,
        hexprs.field hv hcond, hsub.list_zero.field hv hbody]

theorem Decl.neverDeepens : NeverDeepens 0 Decl.encode Decl.decode := by
  intro levels phase j d h
  obtain ⟨hpos, o, hv, hb⟩ := exists_of_record h
  simp only [seq_eq_value, map_eq_value] at hb
  obtain ⟨_, loc, ⟨_, value, ⟨_, ty, ⟨name, -, rfl⟩, hty, rfl⟩, -, rfl⟩, -, rfl⟩ := hb
  have hlt := Ty.neverDeepens.field hv hty
  have hone : 1 < j.depth := Nat.lt_of_le_of_lt ty.encode_depth_pos hlt
  simp [Decl.encode, depth_ofMembers_le_iff, Loc.encode_depth, Literal.encode_depth, hpos, hone,
    hlt]

theorem Param.neverDeepens : NeverDeepens 0 Param.encode Param.decode := by
  intro levels phase j p h
  obtain ⟨hpos, o, hv, hb⟩ := exists_of_record h
  simp only [seq_eq_value, map_eq_value] at hb
  obtain ⟨_, ty, ⟨name, -, rfl⟩, hty, rfl⟩ := hb
  simp [Param.encode, depth_ofMembers_le_iff, hpos, Ty.neverDeepens.field hv hty]

theorem Function.neverDeepens : NeverDeepens 0 Function.encode Function.decode := by
  intro levels phase j f h
  obtain ⟨hpos, o, hv, hb⟩ := exists_of_record h
  simp only [seq_eq_value, map_eq_value] at hb
  obtain ⟨_, loc, ⟨_, body, ⟨_, locals, ⟨_, ret, ⟨_, params, ⟨name, -, rfl⟩, hparams, rfl⟩, hret,
    rfl⟩, hlocals, rfl⟩, hbody, rfl⟩, -, rfl⟩ := hb
  have hlt := Ty.neverDeepens.field hv hret
  have hone : 1 < j.depth := Nat.lt_of_le_of_lt ret.encode_depth_pos hlt
  have hmax : max 2 j.depth = j.depth := by omega
  have hp := Param.neverDeepens.listD hv hparams
  have hl := Decl.neverDeepens.listD hv hlocals
  have hs := Stmt.neverDeepens.listD hv hbody
  rw [hmax] at hp hl hs
  simp [Function.encode, Stmt.encodeAll_eq, depth_ofMembers_le_iff, Loc.encode_depth, hpos, hone,
    hlt, hp, hl, hs]

theorem Class.neverDeepens : NeverDeepens 2 Class.encode Class.decode := by
  intro levels phase j c h
  obtain ⟨hpos, o, hv, hb⟩ := exists_of_record h
  simp only [seq_eq_value, map_eq_value] at hb
  obtain ⟨_, loc, ⟨_, methods, ⟨_, fields, ⟨name, -, rfl⟩, hfields, rfl⟩, hmethods, rfl⟩, -, rfl⟩ :=
    hb
  have hd := Decl.neverDeepens.listD hv hfields
  have hf := Function.neverDeepens.listD hv hmethods
  have hone : 1 < max 2 j.depth := by omega
  have hmax : 0 < max 2 j.depth := by omega
  simp only [Class.encode, depth_ofMembers_le_iff, List.forall_mem_cons, Loc.encode_depth]
  exact ⟨hmax, hmax, hd, hf, hone, by simp⟩

theorem Program.neverDeepens : NeverDeepens 4 Program.encode Program.decode := by
  intro levels phase j p h
  obtain ⟨hpos, o, hv, hb⟩ := exists_of_record h
  simp only [seq_eq_value, map_eq_value] at hb
  obtain ⟨_, body, ⟨_, classes, ⟨_, globals, ⟨functions, hfunctions, rfl⟩, hglobals, rfl⟩, hclasses,
    rfl⟩, hbody, rfl⟩ := hb
  have hf := Function.neverDeepens.listD hv hfunctions
  have hd := Decl.neverDeepens.listD hv hglobals
  have hc := Class.neverDeepens.listD hv hclasses
  have hs := Stmt.neverDeepens.listD hv hbody
  simp only [Program.encode, Stmt.encodeAll_eq, depth_ofMembers_le_iff, List.forall_mem_cons]
  exact ⟨by omega, by omega, by omega, hc, by omega, by simp⟩

end Source

end BlockLowering
