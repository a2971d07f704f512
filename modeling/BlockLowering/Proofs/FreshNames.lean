import BlockLowering.Names
import Mathlib.Data.List.Nodup
import Mathlib.Data.String.Basic

/-! Names drawn from one supply. A base that does not end in a digit can be read off its names,
so a name tells both its base and its number. A draw raises the counter of its base and leaves
the others alone; hence a run of draws never gives a name out twice. -/

namespace BlockLowering

/-- A base whose names leave the final digits to the number. -/
def PlainBase (base : String) : Prop := (base.toList.getLast?.all fun c => !c.isDigit) = true

instance (base : String) : Decidable (PlainBase base) := inferInstanceAs (Decidable (_ = true))

/-- One of the bases followed by decimal digits. -/
def NumberedFrom (bases : List String) (name : String) : Prop :=
  ∃ base ∈ bases, ∃ digits : List Char,
    digits ≠ [] ∧ (∀ c ∈ digits, c.isDigit = true) ∧ name.toList = base.toList ++ digits

theorem numberedFrom_iff (bases : List String) (name : String) : NumberedFrom bases name ↔
    ∃ base ∈ bases, base.toList <+: name.toList ∧ name.toList.drop base.toList.length ≠ [] ∧
      (name.toList.drop base.toList.length).all Char.isDigit = true := by
  constructor
  · rintro ⟨base, hb, digits, hne, hd, he⟩
    refine ⟨base, hb, ⟨digits, he.symm⟩, ?_⟩
    rw [he, List.drop_left]
    exact ⟨hne, List.all_eq_true.mpr hd⟩
  · rintro ⟨base, hb, hp, hne, hd⟩
    exact ⟨base, hb, _, hne, List.all_eq_true.mp hd, (List.prefix_iff_eq_append.mp hp).symm⟩

instance (bases : List String) (name : String) : Decidable (NumberedFrom bases name) :=
  decidable_of_iff' _ (numberedFrom_iff bases name)

/-- A temporary base followed by decimal digits. -/
def IsTemporary (name : String) : Prop :=
  ∃ base ∈ Base.temporaries, ∃ digits : List Char,
    digits ≠ [] ∧ (∀ c ∈ digits, c.isDigit = true) ∧ name.toList = base.toList ++ digits

instance (name : String) : Decidable (IsTemporary name) :=
  inferInstanceAs (Decidable (NumberedFrom Base.temporaries name))

theorem toString_toList_digits (k : Nat) : ∀ c ∈ (toString k).toList, c.isDigit = true := by
  intro c hc
  rw [Nat.toString_eq_repr, Nat.toList_repr] at hc
  exact Nat.isDigit_of_mem_toDigits (by decide) (by decide) hc

theorem toString_toList_ne_nil (k : Nat) : (toString k).toList ≠ [] := by
  rw [Nat.toString_eq_repr, Nat.toList_repr]
  exact Nat.toDigits_ne_nil

theorem numberedFrom_numbered {bases : List String} {base : String} (h : base ∈ bases) (k : Nat) :
    NumberedFrom bases (base ++ toString k) :=
  ⟨base, h, (toString k).toList, toString_toList_ne_nil k, toString_toList_digits k,
    String.toList_append⟩

theorem isTemporary_numbered {base : String} (h : base ∈ Base.temporaries) (k : Nat) :
    IsTemporary (base ++ toString k) :=
  numberedFrom_numbered h k

/-- Digits at the end of a plain base are no digits at all. -/
theorem PlainBase.eq_nil_of_digits {base : String} (h : PlainBase base) {front digits : List Char}
    (hb : base.toList = front ++ digits) (hd : ∀ c ∈ digits, c.isDigit = true) : digits = [] := by
  rcases List.eq_nil_or_concat digits with hn | ⟨ds, d, rfl⟩
  · exact hn
  · have hlast : base.toList.getLast? = some d := by simp [hb]
    have hdig := hd d (by simp)
    simp [PlainBase, hlast, hdig] at h

/-- A name has one plain base only: the longer of two would end in digits of the shorter one's
number. -/
theorem PlainBase.unique {base base' : String} {digits digits' : List Char} (h : PlainBase base)
    (h' : PlainBase base') (hd : ∀ c ∈ digits, c.isDigit = true)
    (hd' : ∀ c ∈ digits', c.isDigit = true)
    (he : base.toList ++ digits = base'.toList ++ digits') : base = base' := by
  rcases List.append_eq_append_iff.mp he with ⟨mid, hb, hk⟩ | ⟨mid, hb, hk⟩
  · have hm : mid = [] := h'.eq_nil_of_digits hb
      (fun c hc => hd c (hk ▸ List.mem_append_left _ hc))
    exact String.toList_injective (by simpa [hm] using hb.symm)
  · have hm : mid = [] := h.eq_nil_of_digits hb
      (fun c hc => hd' c (hk ▸ List.mem_append_left _ hc))
    exact String.toList_injective (by simpa [hm] using hb)

/-- Two lists of plain bases that a name is numbered from share its base. -/
theorem NumberedFrom.common {bases bases' : List String} (hbs : ∀ b ∈ bases, PlainBase b)
    (hbs' : ∀ b ∈ bases', PlainBase b) {name : String} (h : NumberedFrom bases name)
    (h' : NumberedFrom bases' name) : ∃ base ∈ bases, base ∈ bases' := by
  obtain ⟨base, hb, digits, -, hd, he⟩ := h
  obtain ⟨base', hb', digits', -, hd', he'⟩ := h'
  have hbase : base = base' := (hbs base hb).unique (hbs' base' hb') hd hd' (he.symm.trans he')
  exact ⟨base, hb, hbase ▸ hb'⟩

theorem numbered_inj {base base' : String} {k k' : Nat} (h : PlainBase base)
    (h' : PlainBase base') (he : base ++ toString k = base' ++ toString k') :
    base = base' ∧ k = k' := by
  have hl : base.toList ++ (toString k).toList = base'.toList ++ (toString k').toList := by
    simpa only [String.toList_append] using congrArg String.toList he
  have hbase : base = base' :=
    h.unique h' (toString_toList_digits k) (toString_toList_digits k') hl
  subst hbase
  have hd : Nat.toDigits 10 k = Nat.toDigits 10 k' := by
    simpa only [Nat.toString_eq_repr, Nat.toList_repr] using List.append_cancel_left hl
  have hk := congrArg (fun ds => Nat.ofDigitChars 10 ds 0) hd
  exact ⟨rfl, by simpa only [Nat.ofDigitChars_ten_toDigits] using hk⟩

namespace Names

/-- The last number given out for a base, 0 if there is none. -/
def count (names : Names) (base : String) : Nat := (names.last? base).getD 0

/-- Names that the supply will not give out any more: those numbered up to the last number of
their base. -/
def Used (names : Names) (name : String) : Prop :=
  ∃ base k, PlainBase base ∧ k ≤ names.count base ∧ name = base ++ toString k

theorem next_eq (names : Names) (base : String) : names.next base = names.count base + 1 := rfl

theorem count_advance_self (names : Names) (base : String) :
    (names.advance base).count base = names.count base + 1 := by
  simp [count, last?_advance_self, next]

theorem count_advance_of_ne (names : Names) {base other : String} (h : other ≠ base) :
    (names.advance base).count other = names.count other := by
  rw [count, last?_advance_of_ne names h]
  rfl

theorem fits_iff (names : Names) :
    names.fits = true ↔ ∀ base, names.count base ≤ maxNumber := by
  simp only [fits, List.all_eq_true, decide_eq_true_eq]
  constructor
  · intro h base
    by_cases hb : base ∈ names.counters.keys
    · exact h base hb
    · rw [count, last?, Table.get?_eq_none hb]
      exact Nat.zero_le _
  · exact fun h base _ => h base

theorem isTemporary_fresh (names : Names) {base : String} (h : base ∈ Base.temporaries) :
    IsTemporary (names.fresh base) :=
  isTemporary_numbered h (names.next base)

/-- No counter of `later` is behind its counter in `earlier`, and none is lost. -/
def NoBehind (earlier later : Names) : Prop :=
  ∀ base n, earlier.last? base = some n → ∃ n', later.last? base = some n' ∧ n ≤ n'

theorem NoBehind.refl (names : Names) : names.NoBehind names := fun _ n h => ⟨n, h, Nat.le_refl n⟩

theorem NoBehind.trans {a b c : Names} (hab : a.NoBehind b) (hbc : b.NoBehind c) :
    a.NoBehind c := by
  intro base n hn
  obtain ⟨n', hn', hle⟩ := hab base n hn
  obtain ⟨n'', hn'', hle'⟩ := hbc base n' hn'
  exact ⟨n'', hn'', hle.trans hle'⟩

theorem NoBehind.count_le {a b : Names} (h : a.NoBehind b) (base : String) :
    a.count base ≤ b.count base := by
  cases hn : a.last? base with
  | none => simp [count, hn]
  | some n =>
    obtain ⟨n', hn', hle⟩ := h base n hn
    simpa [count, hn, hn'] using hle

theorem NoBehind.used {a b : Names} (h : a.NoBehind b) {name : String} (hu : a.Used name) :
    b.Used name := by
  obtain ⟨base, k, hp, hk, he⟩ := hu
  exact ⟨base, k, hp, hk.trans (h.count_le base), he⟩

theorem noBehind_advance (names : Names) (base : String) :
    names.NoBehind (names.advance base) := by
  intro other n hn
  by_cases he : other = base
  · subst he
    refine ⟨names.next other, last?_advance_self names other, ?_⟩
    simp [next, hn]
  · exact ⟨n, by rw [last?_advance_of_ne names he]; exact hn, Nat.le_refl n⟩

theorem not_used_fresh (names : Names) {base : String} (h : PlainBase base) :
    ¬ names.Used (names.fresh base) := by
  rintro ⟨base', k, hp, hk, he⟩
  obtain ⟨rfl, hn⟩ := numbered_inj h hp he
  rw [next_eq] at hn
  omega

theorem used_advance_fresh (names : Names) {base : String} (h : PlainBase base) :
    (names.advance base).Used (names.fresh base) :=
  ⟨base, names.next base, h, by rw [count_advance_self, next_eq], rfl⟩

theorem numberedFrom_fresh_iff (names : Names) {base other : String} (hb : PlainBase base)
    (ho : PlainBase other) : NumberedFrom [base] (names.fresh other) ↔ base = other := by
  constructor
  · intro h
    have hother : NumberedFrom [other] (names.fresh other) :=
      numberedFrom_numbered (List.mem_singleton_self other) _
    obtain ⟨b, hmem, hmem'⟩ := h.common (by simpa using hb) (by simpa using ho) hother
    rw [← List.mem_singleton.mp hmem, List.mem_singleton.mp hmem']
  · rintro rfl
    exact numberedFrom_numbered (List.mem_singleton_self base) _

end Names

/-- From one state of a supply to a later one: `drawn` are the names that were taken in between, in
order, each from a base that does not end in a digit. -/
inductive Draws : Names → Names → List String → Prop
  | refl (names : Names) : Draws names names []
  | next {names after : Names} {base : String} {drawn : List String} : PlainBase base →
      Draws (names.advance base) after drawn → Draws names after (names.fresh base :: drawn)

namespace Draws

theorem advance (names : Names) {base : String} (h : PlainBase base) :
    Draws names (names.advance base) [names.fresh base] :=
  .next h (.refl _)

theorem trans {a b c : Names} {d e : List String} (h : Draws a b d) (h' : Draws b c e) :
    Draws a c (d ++ e) := by
  induction h with
  | refl => exact h'
  | next hb _ ih => exact .next hb (ih h')

theorem noBehind {a b : Names} {d : List String} (h : Draws a b d) : a.NoBehind b := by
  induction h with
  | refl names => exact .refl names
  | @next names _ base _ _ _ ih => exact (names.noBehind_advance base).trans ih

theorem unused {a b : Names} {d : List String} (h : Draws a b d) : ∀ name ∈ d, ¬ a.Used name := by
  induction h with
  | refl => simp
  | @next names _ base _ hb _ ih =>
    refine List.forall_mem_cons.mpr ⟨names.not_used_fresh hb, fun name hn hu => ?_⟩
    exact ih name hn ((names.noBehind_advance base).used hu)

theorem nodup {a b : Names} {d : List String} (h : Draws a b d) : d.Nodup := by
  induction h with
  | refl => exact List.nodup_nil
  | @next names _ _ _ hb hd ih =>
    exact List.nodup_cons.mpr ⟨fun hm => hd.unused _ hm (names.used_advance_fresh hb), ih⟩

theorem disjoint {a b c : Names} {d e : List String} (h : Draws a b d) (h' : Draws b c e) :
    d.Disjoint e :=
  List.disjoint_of_nodup_append (h.trans h').nodup

end Draws

end BlockLowering
