import BlockLowering.Layout
import Mathlib.Data.List.Basic

/-! Layouts whose fields start from literals. The layout that is computed from the classes of a
program is one of them. -/

namespace BlockLowering

namespace Table

variable {α : Type}

theorem mem_values_insert {t : Table α} {name : String} {value v : α}
    (h : v ∈ (t.insert name value).values) : v = value ∨ v ∈ t.values := by
  obtain ⟨entries⟩ := t
  simp only [insert, values] at h ⊢
  induction entries with
  | nil => simpa [setEntry] using h
  | cons e rest ih =>
    obtain ⟨k, w⟩ := e
    by_cases hk : k = name
    · simp only [setEntry, hk, if_true, List.map_cons, List.mem_cons] at h ⊢
      exact h.imp_right Or.inr
    · simp only [setEntry, hk, if_false, List.map_cons, List.mem_cons] at h ⊢
      rcases h with h | h
      · exact Or.inr (Or.inl h)
      · exact (ih h).imp_right Or.inr

theorem forall_values_ofList {P : α → Prop} {entries : List (String × α)}
    (h : ∀ e ∈ entries, P e.2) : ∀ v ∈ (ofList entries).values, P v := by
  suffices hfold : ∀ t : Table α, (∀ v ∈ t.values, P v) →
      ∀ v ∈ (entries.foldl (fun t e => t.insert e.1 e.2) t).values, P v from
    hfold ⟨[]⟩ (by simp [values])
  induction entries with
  | nil => exact fun _ ht => ht
  | cons e rest ih =>
    intro t ht
    refine ih (fun e' he' => h e' (List.mem_cons_of_mem _ he')) _ fun v hv => ?_
    rcases mem_values_insert hv with rfl | hv
    · exact h e List.mem_cons_self
    · exact ht v hv

end Table

def ClassLayout.Literal (fields : ClassLayout) : Prop :=
  ∀ slot ∈ fields.values, slot.initial.varName? = none

/-- The fields of new objects start from literals. -/
def Layout.Literal (layout : Layout) : Prop :=
  ∀ className fields, layout.fields? className = some fields → fields.Literal

theorem ClassLayout.literal_ofFields (fields : List Source.Decl) : (ofFields fields).Literal := by
  refine Table.forall_values_ofList fun e he => ?_
  obtain ⟨⟨d, i⟩, _, rfl⟩ := List.mem_map.mp he
  cases hv : d.value <;> simp [hv, Flat.Operand.ofLiteral, Flat.Operand.varName?]

/-- A class that can be looked up is among those the layout was computed from. -/
theorem Layout.exists_class {classes : List Source.Class} {className : String}
    {fields : ClassLayout} (h : (ofClasses classes).fields? className = some fields) :
    ∃ c ∈ classes, c.name = className ∧ fields = .ofFields c.fields := by
  suffices hfold : ∀ layout : Layout,
      (classes.foldl (fun l c => l.insert c.name (.ofFields c.fields)) layout).fields? className =
        some fields →
      (∃ c ∈ classes, c.name = className ∧ fields = .ofFields c.fields) ∨
        layout.fields? className = some fields from
    (hfold {} h).resolve_right fun hnone => by cases hnone
  clear h
  induction classes with
  | nil => exact fun _ h => Or.inr h
  | cons c rest ih =>
    intro layout h
    rcases ih _ h with ⟨c', hc', he⟩ | hfound
    · exact Or.inl ⟨c', List.mem_cons_of_mem _ hc', he⟩
    · by_cases hname : className = c.name
      · subst hname
        have hfields : ClassLayout.ofFields c.fields = fields := by
          simpa [fields?, insert] using hfound
        exact Or.inl ⟨c, List.mem_cons_self, rfl, hfields.symm⟩
      · refine Or.inr ?_
        simpa [fields?, insert, Table.get?_insert_of_ne _ hname] using hfound

theorem Layout.literal_ofClasses (classes : List Source.Class) : (ofClasses classes).Literal := by
  intro className fields h
  obtain ⟨c, -, -, rfl⟩ := exists_class h
  exact ClassLayout.literal_ofFields c.fields

end BlockLowering
