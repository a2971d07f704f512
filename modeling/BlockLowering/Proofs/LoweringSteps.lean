import BlockLowering.Flatten.Lower
import BlockLowering.Proofs.FreshNames

/-! Steps of lowering. Whatever a step does, the names on its trail are the ones it drew, and a
sequence of steps succeeds exactly when each of them does. The verdict on a run is read off the
names that it leaves and its result. -/

namespace BlockLowering

/-- Trails that tell which names were drawn, in order. -/
class Naming (ω : Type) [EmptyCollection ω] [Append ω] where
  drawn : ω → List String
  drawn_empty : drawn ∅ = []
  drawn_append (t u : ω) : drawn (t ++ u) = drawn t ++ drawn u

export Naming (drawn drawn_empty drawn_append)

attribute [simp] drawn_empty drawn_append

instance : Naming (List String) := ⟨id, rfl, fun _ _ => rfl⟩

/-- From whatever supply the step starts, the names on its trail are what it drew, also when it
ends in a fault. -/
def Lower.Supplied {ω α : Type} [EmptyCollection ω] [Append ω] [Naming ω] (m : Lower ω α) : Prop :=
  ∀ names, Draws names (m names).names (drawn (m names).trail)

namespace Lower

variable {ω ω' α β : Type} [EmptyCollection ω] [Append ω] [Naming ω]

theorem supplied_pure (a : α) : (pure a : Lower ω α).Supplied := by
  intro names
  change Draws names names (drawn (∅ : ω))
  rw [drawn_empty]
  exact .refl names

theorem Supplied.bind {m : Lower ω α} {next : α → Lower ω β} (hm : m.Supplied)
    (hn : ∀ a, (next a).Supplied) : (m >>= next).Supplied := by
  intro names
  have h := hm names
  change Draws names (andThen m next names).names (drawn (andThen m next names).trail)
  unfold andThen
  rcases hr : m names with ⟨_ | a, mid, t⟩
  · simpa [hr] using h
  · have h' := hn a mid
    simp only [hr] at h ⊢
    rw [drawn_append]
    exact h.trans h'

theorem Supplied.mapTrail [EmptyCollection ω'] [Append ω'] [Naming ω'] {m : Lower ω α}
    (hm : m.Supplied) (f : ω → ω') (hf : ∀ t, drawn (f t) = drawn t) :
    (m.mapTrail f).Supplied := by
  intro names
  change Draws names (m names).names (drawn (f (m names).trail))
  rw [hf]
  exact hm names

theorem supplied_leave (trail : ω) (h : drawn trail = []) : (leave trail).Supplied := by
  intro names
  change Draws names names (drawn trail)
  rw [h]
  exact .refl names

end Lower

theorem supplied_draw {base : String} (h : PlainBase base) : (draw base).Supplied :=
  fun names => .advance names h

namespace Lower

variable {ω α β : Type}

/-- A step succeeds: the value it ends with, the supply then, and the trail it left. -/
def Yields (m : Lower ω α) (before : Names) (a : α) (after : Names) (trail : ω) : Prop :=
  m before = ⟨.ok a, after, trail⟩

theorem yields_of_result {m : Lower ω α} {names : Names} {a : α}
    (h : (m names).result = .ok a) : m.Yields names a (m names).names (m names).trail := by
  rcases hm : m names with ⟨r, after, trail⟩
  rw [hm] at h
  simp only [Yields, hm, show r = .ok a from h]

theorem yields_leave {a : Unit} {names after : Names} {trail t : ω} :
    (leave trail).Yields names a after t ↔ after = names ∧ t = trail := by
  change Outcome.mk _ _ _ = _ ↔ _
  simp [eq_comm]

theorem yields_mapTrail {ω' : Type} {m : Lower ω α} {f : ω → ω'} {a : α} {names after : Names}
    {t : ω'} : (m.mapTrail f).Yields names a after t ↔ ∃ u, m.Yields names a after u ∧ t = f u := by
  change Outcome.mk _ _ _ = _ ↔ ∃ u, m names = _ ∧ _
  rcases m names with ⟨r, mid, u⟩
  simp only [Outcome.mk.injEq]
  constructor
  · rintro ⟨rfl, rfl, rfl⟩
    exact ⟨u, ⟨rfl, rfl, rfl⟩, rfl⟩
  · rintro ⟨_, ⟨rfl, rfl, rfl⟩, rfl⟩
    exact ⟨rfl, rfl, rfl⟩

variable [EmptyCollection ω] [Append ω]

theorem yields_pure {a b : α} {names after : Names} {t : ω} :
    (pure a : Lower ω α).Yields names b after t ↔ b = a ∧ after = names ∧ t = ∅ := by
  change Outcome.mk _ _ _ = _ ↔ _
  simp only [Outcome.mk.injEq, Except.ok.injEq, eq_comm]

theorem yields_bind {m : Lower ω α} {next : α → Lower ω β} {names after : Names} {b : β} {t : ω} :
    (m >>= next).Yields names b after t ↔ ∃ a mid t₁ t₂, m.Yields names a mid t₁ ∧
      (next a).Yields mid b after t₂ ∧ t = t₁ ++ t₂ := by
  change andThen m next names = _ ↔ _
  unfold andThen Yields
  rcases m names with ⟨_ | a, mid, t₁⟩
  · simp
  · constructor
    · intro h
      obtain ⟨hr, ha, ht⟩ := Outcome.mk.inj h
      refine ⟨a, mid, t₁, (next a mid).trail, rfl, ?_, ht.symm⟩
      rw [← hr, ← ha]
    · rintro ⟨a', mid', u, t₂, hm, hn, rfl⟩
      obtain ⟨ha, rfl, rfl⟩ := Outcome.mk.inj hm
      cases ha
      simp only [hn]

theorem exists_of_each_cons {step : α → Lower ω β} {item : α} {rest : List α} {xs : List β}
    {names after : Names} {t : ω} (h : (each step (item :: rest)).Yields names xs after t) :
    ∃ x ys mid t₁ t₂, (step item).Yields names x mid t₁ ∧ (each step rest).Yields mid ys after t₂ ∧
      xs = x :: ys ∧ t = t₁ ++ (t₂ ++ ∅) := by
  obtain ⟨x, mid, t₁, _, hx, hrest, rfl⟩ := yields_bind.mp h
  obtain ⟨ys, _, t₂, _, hys, hp, rfl⟩ := yields_bind.mp hrest
  obtain ⟨rfl, rfl, rfl⟩ := yields_pure.mp hp
  exact ⟨x, ys, mid, t₁, t₂, hx, hys, rfl, rfl⟩

end Lower

theorem yields_draw {base name : String} {names after : Names} {t : List String} :
    (draw base).Yields names name after t ↔
      name = names.fresh base ∧ after = names.advance base ∧ t = [names.fresh base] := by
  change Outcome.mk _ _ _ = _ ↔ _
  simp only [Outcome.mk.injEq, Except.ok.injEq, eq_comm]

theorem Draw.bind_assoc {α β γ : Type} (m : Draw α) (f : α → Draw β) (g : β → Draw γ) :
    (m >>= f) >>= g = m >>= fun a => f a >>= g := by
  funext names
  change Lower.andThen (Lower.andThen m f) g names =
    Lower.andThen m (fun a => Lower.andThen (f a) g) names
  unfold Lower.andThen
  rcases m names with ⟨_ | a, mid, t⟩
  · rfl
  · rcases hf : f a mid with ⟨_ | b, mid', t'⟩ <;> simp [hf]

/-- What a verdict says about the names that a run leaves and about its result. -/
def Outcome.Ends {ω α : Type} (o : Outcome ω α) : Verdict α → Prop
  | .value a => o.names.fits = true ∧ o.result = .ok a
  | .fault f => o.names.fits = true ∧ o.result = .error f
  | .overflow => ¬ o.names.fits = true

theorem Outcome.verdict_eq_iff {ω α : Type} (o : Outcome ω α) (v : Verdict α) :
    o.verdict = v ↔ o.Ends v := by
  unfold verdict
  by_cases hf : o.names.fits = true
  · rw [if_pos hf]
    cases hr : o.result <;> cases v <;> simp [Ends, hf, hr]
  · rw [if_neg hf]
    cases v <;> simp [Ends, hf]

theorem ok_of_isOk {ε α : Type} {result : Except ε α} (h : result.isOk = true) :
    ∃ a, result = .ok a := by
  cases result with
  | error e => cases h
  | ok a => exact ⟨a, rfl⟩

end BlockLowering
