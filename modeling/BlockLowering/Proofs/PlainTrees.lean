import BlockLowering.Json.Decode
import Mathlib.Data.List.Basic

/-! How many levels a tree opens, and the trees that values are written as. A plain tree has no
flaw anywhere and no number but integers of 64 bits. Such a tree can be read completely wherever
it may open all of its levels. -/

namespace BlockLowering.Json

mutual

/-- The number of levels of lists and objects that a value opens. -/
def depth : Json → Nat
  | list items _ => itemsDepth items + 1
  | object members _ => membersDepth members + 1
  | null => 0
  | bool _ => 0
  | number _ => 0
  | text _ => 0
  | fault _ => 0

def itemsDepth : List Json → Nat
  | [] => 0
  | item :: rest => max item.depth (itemsDepth rest)

def membersDepth : List (Token String × Json) → Nat
  | [] => 0
  | (_, value) :: rest => max value.depth (membersDepth rest)

end

theorem itemsDepth_le_iff {items : List Json} {n : Nat} :
    itemsDepth items ≤ n ↔ ∀ j ∈ items, j.depth ≤ n := by
  induction items with
  | nil => simp [itemsDepth]
  | cons item rest ih => rw [itemsDepth, Nat.max_le, ih, List.forall_mem_cons]

theorem membersDepth_le_iff {members : List (Token String × Json)} {n : Nat} :
    membersDepth members ≤ n ↔ ∀ m ∈ members, m.2.depth ≤ n := by
  induction members with
  | nil => simp [membersDepth]
  | cons m rest ih => rw [membersDepth, Nat.max_le, ih, List.forall_mem_cons]

theorem depth_lt_of_mem_items {items : List Json} {stop : Stop} {j : Json} (h : j ∈ items) :
    j.depth < (list items stop).depth :=
  Nat.lt_succ_of_le (itemsDepth_le_iff.mp (Nat.le_refl _) j h)

theorem depth_lt_of_mem_members {members : List (Token String × Json)} {stop : Stop}
    {m : Token String × Json} (h : m ∈ members) : m.2.depth < (object members stop).depth :=
  Nat.lt_succ_of_le (membersDepth_le_iff.mp (Nat.le_refl _) m h)

@[simp] theorem depth_ofString (s : String) : (ofString s).depth = 0 := rfl

@[simp] theorem depth_ofInt (n : Int) : (ofInt n).depth = 0 := rfl

@[simp] theorem depth_bool (b : Bool) : (bool b).depth = 0 := rfl

theorem depth_ofList_le_iff {items : List Json} {n : Nat} :
    (ofList items).depth ≤ n ↔ 0 < n ∧ ∀ j ∈ items, j.depth < n := by
  cases n with
  | zero => simp [ofList, depth]
  | succ n =>
    simp only [ofList, depth, Nat.add_le_add_iff_right, itemsDepth_le_iff, Nat.lt_succ_iff,
      Nat.zero_le, true_and]

theorem lt_depth_ofList {items : List Json} {j : Json} (h : j ∈ items) :
    j.depth < (ofList items).depth :=
  (depth_ofList_le_iff.mp (Nat.le_refl _)).2 j h

/-- Members with their keys as tokens, the way an object holds them. -/
def keyed (members : List (String × Json)) : List (Token String × Json) :=
  members.map fun m => (.ok m.1, m.2)

theorem ofMembers_eq (members : List (String × Json)) :
    ofMembers members = .object (keyed members) .closed := rfl

theorem depth_ofMembers_le_iff {members : List (String × Json)} {n : Nat} :
    (ofMembers members).depth ≤ n ↔ 0 < n ∧ ∀ m ∈ members, m.2.depth < n := by
  cases n with
  | zero => simp [ofMembers, depth]
  | succ n =>
    simp only [ofMembers, depth, Nat.add_le_add_iff_right, membersDepth_le_iff, List.forall_mem_map,
      Nat.lt_succ_iff, Nat.zero_le, true_and]

theorem lt_depth_ofMembers {members : List (String × Json)} {m : String × Json} (h : m ∈ members) :
    m.2.depth < (ofMembers members).depth :=
  (depth_ofMembers_le_iff.mp (Nat.le_refl _)).2 m h

/-- A tree without flaws, whose numbers are integers of 64 bits, signed if they are negative. -/
inductive Plain : Json → Prop
  | null : Plain .null
  | bool (b : Bool) : Plain (.bool b)
  | integer (n : Int) (low : -0x8000000000000000 ≤ n) (high : n < 0x10000000000000000) :
    Plain (.ofInt n)
  | text (s : String) : Plain (.ofString s)
  | list (items : List Json) (h : ∀ j ∈ items, Plain j) : Plain (.ofList items)
  | object (members : List (String × Json)) (h : ∀ m ∈ members, Plain m.2) :
    Plain (.ofMembers members)

attribute [simp] Plain.bool Plain.text

@[simp] theorem plain_ofList_iff {items : List Json} :
    (ofList items).Plain ↔ ∀ j ∈ items, j.Plain := by
  refine ⟨fun h => ?_, .list items⟩
  generalize hj : ofList items = j at h
  cases h with
  | list items' h' => exact (Json.list.inj hj).1 ▸ h'
  | _ => cases hj

theorem keyed_injective : Function.Injective keyed := by
  apply List.map_injective_iff.mpr
  intro m m' h
  exact Prod.ext (Except.ok.inj (Prod.ext_iff.mp h).1) (Prod.ext_iff.mp h).2

@[simp] theorem plain_ofMembers_iff {members : List (String × Json)} :
    (ofMembers members).Plain ↔ ∀ m ∈ members, m.2.Plain := by
  refine ⟨fun h => ?_, .object members⟩
  generalize hj : ofMembers members = j at h
  cases h with
  | object members' h' => exact keyed_injective (Json.object.inj hj).1 ▸ h'
  | _ => cases hj

theorem wholeItems_eq_ok {items : List Json} {n : Nat} (h : ∀ j ∈ items, j.whole n = .ok ()) :
    wholeItems n items = .ok () := by
  induction items with
  | nil => rfl
  | cons item rest ih =>
    have hitem := h item List.mem_cons_self
    have hrest := ih fun j hj => h j (List.mem_cons_of_mem _ hj)
    rw [wholeItems, hitem, hrest]
    rfl

theorem wholeMembers_eq_ok {members : List (String × Json)} {n : Nat}
    (h : ∀ m ∈ members, m.2.whole n = .ok ()) :
    wholeMembers n (keyed members) = .ok () := by
  induction members with
  | nil => rfl
  | cons m rest ih =>
    have hm := h m List.mem_cons_self
    have hrest := ih fun m' hm' => h m' (List.mem_cons_of_mem _ hm')
    rw [keyed, List.map_cons, wholeMembers, hm]
    exact hrest

theorem Plain.whole_eq_ok {j : Json} {n : Nat} (h : j.Plain) (hd : j.depth ≤ n) :
    j.whole n = .ok () := by
  induction h generalizing n with
  | null => rfl
  | bool b => rfl
  | integer m low high => rfl
  | text s => rfl
  | list items h ih =>
    obtain ⟨hn, hitems⟩ := depth_ofList_le_iff.mp hd
    obtain ⟨n, rfl⟩ := Nat.exists_eq_add_one.mpr hn
    have hw := wholeItems_eq_ok fun j hj => ih j hj (Nat.lt_succ_iff.mp (hitems j hj))
    rw [ofList, whole, hw]
    rfl
  | object members h ih =>
    obtain ⟨hn, hmembers⟩ := depth_ofMembers_le_iff.mp hd
    obtain ⟨n, rfl⟩ := Nat.exists_eq_add_one.mpr hn
    have hw := wholeMembers_eq_ok fun m hm => ih m hm (Nat.lt_succ_iff.mp (hmembers m hm))
    rw [ofMembers_eq, whole, hw]
    rfl

end BlockLowering.Json
